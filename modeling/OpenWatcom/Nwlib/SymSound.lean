import OpenWatcom.Nwlib.SymLinks
import Mathlib.Order.Bounds.Basic

/-!
# One entry for every name

* `symbolNameCmp_eq_zero`   which names `SymbolNameCmp` takes for one;
* `Consistent`, `Strongest` what holds of a table, and of the strengths of its entries;
* `Findable`                the bucket that `AddSym` searches is the one of the entry of the name;
* `table_sound_iff`         a run keeps the table right exactly when every name is findable.
-/

namespace Nwlib
open Buckets

/-! ## equal names -/

theorem charValue_eq_zero {c : UInt8} : charValue c = 0 ↔ c = 0 := by
  rw [charValue, Int.natCast_eq_zero, ← UInt8.toNat_zero, UInt8.toNat_inj]

theorem strcmp_eq_zero {s t : List UInt8} (hs : (0 : UInt8) ∉ s) (ht : (0 : UInt8) ∉ t) :
    strcmp s t = 0 ↔ s = t := by
  induction s generalizing t with
  | nil =>
    cases t with
    | nil => simp [strcmp]
    | cons d t =>
      have hd : d ≠ 0 := fun e => ht (e ▸ List.mem_cons_self)
      have hv : charValue d ≠ 0 := fun e => hd (charValue_eq_zero.mp e)
      rw [strcmp, Int.zero_sub, Int.neg_eq_zero]
      simp [hv]
  | cons c s ih =>
    cases t with
    | nil =>
      have hc : c ≠ 0 := fun e => hs (e ▸ List.mem_cons_self)
      have hv : charValue c ≠ 0 := fun e => hc (charValue_eq_zero.mp e)
      rw [strcmp]
      simp [hv]
    | cons d t =>
      rw [strcmp]
      by_cases h : c = d
      · rw [if_pos h, ih (fun m => hs (List.mem_cons_of_mem c m))
          (fun m => ht (List.mem_cons_of_mem d m)), h]
        simp
      · rw [if_neg h]
        have hne : c.toNat ≠ d.toNat := fun e => h (UInt8.toNat_inj.mp e)
        have hv : charValue c - charValue d ≠ 0 := by
          unfold charValue
          omega
        simp [hv, h]

theorem toLower_ne_zero {c : UInt8} (h : c ≠ 0) : toLower c ≠ 0 := by
  have key : ∀ n < 256, UInt8.ofNat n ≠ 0 → toLower (UInt8.ofNat n) ≠ 0 := by decide +kernel
  have hc := key c.toNat c.toNat_lt
  rw [UInt8.ofNat_toNat] at hc
  exact hc h

theorem noNul_lower {s : List UInt8} (h : (0 : UInt8) ∉ s) : (0 : UInt8) ∉ s.map toLower := by
  intro hm
  obtain ⟨c, hc, e⟩ := List.mem_map.mp hm
  exact toLower_ne_zero (fun hz => h (hz ▸ hc)) e

/-- the spelling that `SymbolNameCmp` compares -/
def folded (o : Options) (s : Name) : List UInt8 :=
  if o.respectCase then s.bytes else s.bytes.map toLower

theorem symbolNameCmp_eq_zero (o : Options) (s t : Name) :
    symbolNameCmp o s t = 0 ↔ folded o s = folded o t := by
  rw [symbolNameCmp, folded, folded]
  split
  · exact strcmp_eq_zero s.noNul t.noNul
  · exact strcmp_eq_zero (noNul_lower s.noNul) (noNul_lower t.noNul)

theorem folded_length (o : Options) (s : Name) : (folded o s).length = s.bytes.length := by
  rw [folded]
  split
  · rfl
  · exact List.length_map _

/-! ## what holds of a table -/

/-- one entry for every name, each on its two lists and nowhere else -/
structure Consistent (o : Options) (t : Table) : Prop where
  unique : ∀ x y d e, t.heap x = some d → t.heap y = some e →
    symbolNameCmp o d.name e.name = 0 → x = y
  /-- the entry stands once on the list of its own file, and on the list of no other file -/
  onFile : ∀ x e, t.heap x = some e → ∃ before sfile after, t.files = before ++ sfile :: after ∧
    sfile.id = e.file ∧ sfile.syms.count x = 1 ∧ ∀ g ∈ before ++ after, x ∉ g.syms
  /-- the entry stands once on the chain of its own hash value, and on no other chain -/
  onChain : ∀ x e, t.heap x = some e → ∀ h,
    (t.hashTable h).count x = if h = hash e.name then 1 else 0
  /-- what stands on a list is an entry in memory -/
  live : ∀ x, t.heap x = none → (∀ sfile ∈ t.files, x ∉ sfile.syms) ∧ ∀ h, x ∉ t.hashTable h

/-- no two entries have one name -/
def Unique (o : Options) (t : Table) : Prop :=
  ∀ x y d e, t.heap x = some d → t.heap y = some e → folded o d.name = folded o e.name → x = y

theorem unique_iff (o : Options) (t : Table) :
    (∀ x y d e, t.heap x = some d → t.heap y = some e →
      symbolNameCmp o d.name e.name = 0 → x = y) ↔ Unique o t := by
  simp only [symbolNameCmp_eq_zero]
  exact Iff.rfl

theorem Linked.consistent {o : Options} {t : Table} (h : Linked t) (hu : Unique o t) :
    Consistent o t where
  unique := (unique_iff o t).mpr hu
  onFile := by
    intro x e hx
    obtain ⟨sfile, hm, hid⟩ := List.mem_map.mp (h.file_mem hx)
    obtain ⟨before, after, hsplit⟩ := List.append_of_mem hm
    have hk : fileOf t.heap x = some e.file := by rw [fileOf, hx]; rfl
    have hn := h.ids
    rw [hsplit, List.map_append, List.map_cons] at hn
    obtain ⟨-, h2, h3⟩ := List.nodup_append.mp hn
    refine ⟨before, sfile, after, hsplit, hid, ?_, ?_⟩
    · have hc := h.onFiles.count hk e.file
      rw [if_pos rfl, ← hid, symsOf_mem h.ids hm] at hc
      exact hc
    · intro g hg hxg
      have hgm : g ∈ t.files := by
        rw [hsplit]
        rcases List.mem_append.mp hg with hg | hg
        · exact List.mem_append_left _ hg
        · exact List.mem_append_right _ (List.mem_cons_of_mem _ hg)
      have hgk : fileOf t.heap x = some g.id := by
        rw [← h.onFiles.mem, symsOf_mem h.ids hgm]
        exact hxg
      have hge : g.id = sfile.id := by
        rw [hid]
        exact Option.some.inj (hgk.symm.trans hk)
      rcases List.mem_append.mp hg with hg | hg
      · exact h3 _ (List.mem_map_of_mem hg) _ List.mem_cons_self hge
      · exact (List.nodup_cons.mp h2).1 (hge ▸ List.mem_map_of_mem hg)
  onChain := by
    intro x e hx k
    exact h.onChains.count (by rw [hashOf, hx]; rfl) k
  live := by
    intro x hx
    refine ⟨fun sfile hm hxs => ?_, fun k hk => ?_⟩
    · have hf : fileOf t.heap x = some sfile.id := by
        rw [← h.onFiles.mem, symsOf_mem h.ids hm]
        exact hxs
      rw [fileOf, hx] at hf
      exact absurd hf (by simp)
    · have hf := h.onChains.mem.mp hk
      rw [hashOf, hx] at hf
      exact absurd hf (by simp)

/-- a run adds a definition of the name, with this strength, while `f` is the current file -/
def Adds (o : Options) : Table → List Op → Name → Strength → FileId → Prop
  | _, [], _, _, _ => False
  | t, op :: ops, n, st, f =>
    (∃ info, op = .addSym n st info ∧ t.currFile = some f) ∨
      ∃ u, step o t op = some u ∧ Adds o u ops n st f

/-- every entry of the table `t` that the run `ops` leads to has the greatest strength of the
definitions of its name that were added since the entry was made and whose file was not removed -/
def Strongest (o : Options) (ops : List Op) (t : Table) : Prop :=
  ∀ x e, t.heap x = some e → ∃ a op b u v, ops = a ++ op :: b ∧ run o initFileTab a = some u ∧
    step o u op = some v ∧ u.heap x = none ∧ v.heap x = some e ∧
    IsGreatest {k | ∃ n st f, Adds o u (op :: b) n st f ∧ f ∈ t.files.map SymFile.id ∧
      symbolNameCmp o e.name n = 0 ∧ st.rank = k} e.strength.rank

/-- an entry of the added name is in the bucket of that very spelling, and its length fits the
`unsigned short` that `AddSym` compares first -/
def Findable (o : Options) (t : Table) : Op → Prop
  | .addSym name _ _ => ∀ x e, t.heap x = some e → symbolNameCmp o e.name name = 0 →
      hash e.name = hash name ∧ name.bytes.length < 65536
  | _ => True

/-! ## one operation -/

theorem matches_iff {o : Options} {t : Table} (h : Linked t) {name : Name} {strength : Strength}
    {info : UInt8} (hf : Findable o t (.addSym name strength info)) {x : SymId} {e : SymEntry} :
    Matches o t name x e ↔ t.heap x = some e ∧ folded o e.name = folded o name := by
  rw [← symbolNameCmp_eq_zero]
  refine ⟨fun hm => ⟨hm.1, hm.2.2.2⟩, fun ⟨hx, hc⟩ => ?_⟩
  obtain ⟨hh, hlen⟩ := hf x e hx hc
  have hl : e.name.bytes.length = name.bytes.length := by
    rw [← folded_length o e.name, ← folded_length o name, (symbolNameCmp_eq_zero o _ _).mp hc]
  have hu : (UInt16.ofNat name.bytes.length).toNat = name.bytes.length := by
    rw [UInt16.toNat_ofNat']
    exact Nat.mod_eq_of_lt hlen
  refine ⟨hx, hh, ?_, hc⟩
  rw [h.len x e hx, hl, hu]

/-- an entry that is in memory after `AddSym` was there before, or was made -/
theorem addSym_heap {o : Options} {t t' : Table} (h : Linked t) {name : Name}
    {strength : Strength} {info : UInt8} (hs : addSym o t name strength info = some t')
    {x : SymId} {e : SymEntry} (hx : t'.heap x = some e) :
    t.heap x = some e ∨ (e.name = name ∧ e.strength = strength ∧ x = t.nextSym ∧
      t.currFile = some e.file) := by
  have pushed : ∀ {u : Table}, Linked u → pushSym u (hash name) name strength info = some t' →
      u.heap x = some e ∨ (e.name = name ∧ e.strength = strength ∧ x = u.nextSym ∧
        u.currFile = some e.file) := by
    intro u hu hp
    have hP := pushSym_pushed hu hp
    obtain ⟨f, hf⟩ := Option.ne_none_iff_exists'.mp hP.curr
    rw [(hP.heap f hf).2] at hx
    by_cases hne : x = u.nextSym
    · right
      rw [hne, Function.update_self] at hx
      obtain rfl := Option.some.inj hx
      exact ⟨rfl, rfl, hne, hf⟩
    · left
      rwa [Function.update_of_ne hne] at hx
  rcases addSym_cases h hs with ⟨y, d, hm, -, hp⟩ | ⟨y, d, -, -, rfl⟩ | ⟨-, hp⟩
  · rcases pushed (dropped_linked h hm.1) hp with hd | hnew
    · left
      change Function.update t.heap y none x = some e at hd
      by_cases hxy : x = y
      · rw [hxy, Function.update_self] at hd
        exact absurd hd (by simp)
      · rwa [Function.update_of_ne hxy] at hd
    · exact Or.inr hnew
  · left
    obtain ⟨w, hw⟩ := warnDuplicate_fields o t name strength d
    rw [hw] at hx
    exact hx
  · exact pushed h hp

section
variable {o : Options} {t t' : Table} {name : Name} {strength : Strength} {info : UInt8}
  (h : Linked t) (hu : Unique o t) (hf : Findable o t (.addSym name strength info))
  (hs : addSym o t name strength info = some t')
include h hu hf hs

/-- an entry of the added name that `AddSym` leaves in memory is at least as strong -/
theorem addSym_kept {x : SymId} {e : SymEntry} (hx : t.heap x = some e)
    (hx' : t'.heap x = some e) (hn : folded o e.name = folded o name) :
    strength.rank ≤ e.strength.rank := by
  have hm : Matches o t name x e := (matches_iff h hf).mpr ⟨hx, hn⟩
  rcases addSym_cases h hs with ⟨y, d, hd, -, hp⟩ | ⟨y, d, hd, hle, -⟩ | ⟨hno, -⟩
  · exfalso
    -- the entry that was replaced is this one
    have hdm := (matches_iff h hf).mp hd
    have hxy : x = y := hu x y e d hx hd.1 (hn.trans hdm.2.symm)
    have hP := pushSym_pushed (dropped_linked h hd.1) hp
    obtain ⟨f, hfc⟩ := Option.ne_none_iff_exists'.mp hP.curr
    have hlt : x < (dropped t y d).nextSym := h.heapLt x e hx
    rw [(hP.heap f hfc).2, Function.update_of_ne (Nat.ne_of_lt hlt)] at hx'
    change Function.update t.heap y none x = some e at hx'
    rw [hxy, Function.update_self] at hx'
    exact absurd hx' (by simp)
  · have hdm := (matches_iff h hf).mp hd
    have hxy : x = y := hu x y e d hx hd.1 (hn.trans hdm.2.symm)
    have hed : e = d := by
      rw [hxy] at hx
      exact Option.some.inj (hx.symm.trans hd.1)
    rw [hed]
    exact hle
  · exact absurd hm (hno x e)

theorem addSym_unique : Unique o t' := by
  -- an old entry and the one that was made do not share a name
  have key : ∀ x y d e, t'.heap x = some d → t'.heap y = some e → t.heap x = some d →
      y = t.nextSym → e.name = name → folded o d.name = folded o e.name → False := by
    intro x y d e hx hy hxt hyn hname hde
    rw [hname] at hde
    have hm : Matches o t name x d := (matches_iff h hf).mpr ⟨hxt, hde⟩
    have hle := addSym_kept h hu hf hs hxt hx hde
    rcases addSym_cases h hs with ⟨z, c, hc, hlt, -⟩ | ⟨z, c, -, -, rfl⟩ | ⟨hno, -⟩
    · have hcm := (matches_iff h hf).mp hc
      have hxz : x = z := hu x z d c hxt hc.1 (hde.trans hcm.2.symm)
      have hdc : d = c := by
        rw [hxz] at hxt
        exact Option.some.inj (hxt.symm.trans hc.1)
      rw [hdc] at hle
      omega
    · obtain ⟨w, hw⟩ := warnDuplicate_fields o t name strength c
      rw [hw, hyn] at hy
      exact absurd (h.fresh.symm.trans hy) (by simp)
    · exact hno x d hm
  intro x y d e hx hy hde
  rcases addSym_heap h hs hx with hxt | ⟨hxn, -, hxt, -⟩
  · rcases addSym_heap h hs hy with hyt | ⟨hyn, -, hyt, -⟩
    · exact hu x y d e hxt hyt hde
    · exact (key x y d e hx hy hxt hyt hyn hde).elim
  · rcases addSym_heap h hs hy with hyt | ⟨hyn, -, hyt, -⟩
    · exact (key y x e d hy hx hyt hxt hxn hde.symm).elim
    · rw [hxt, hyt]

end

/-- an entry that `AddSym` cannot find gets a second one beside it -/
theorem addSym_not_unique {o : Options} {t t' : Table} (h : Linked t) (hu : Unique o t)
    {name : Name} {strength : Strength} {info : UInt8}
    (hf : ¬ Findable o t (.addSym name strength info))
    (hs : addSym o t name strength info = some t') : ¬ Unique o t' := by
  obtain ⟨x, e, hx, hc, hbad⟩ : ∃ x e, t.heap x = some e ∧ symbolNameCmp o e.name name = 0 ∧
      ¬ (hash e.name = hash name ∧ name.bytes.length < 65536) := by
    simpa only [Findable, not_forall, exists_prop] using hf
  have hfold := (symbolNameCmp_eq_zero o _ _).mp hc
  have hno : ∀ y d, ¬ Matches o t name y d := by
    intro y d hm
    have hyx : y = x := hu y x d e hm.1 hx
      (((symbolNameCmp_eq_zero o _ _).mp hm.2.2.2).trans hfold.symm)
    have hde : d = e := by
      rw [hyx] at hm
      exact Option.some.inj (hm.1.symm.trans hx)
    refine hbad ⟨hde ▸ hm.2.1, ?_⟩
    rw [← hm.2.2.1]
    exact d.len.toNat_lt
  rcases addSym_cases h hs with ⟨y, d, hm, -⟩ | ⟨y, d, hm, -⟩ | ⟨-, hp⟩
  · exact absurd hm (hno y d)
  · exact absurd hm (hno y d)
  · have hP := pushSym_pushed h hp
    obtain ⟨f, hfc⟩ := Option.ne_none_iff_exists'.mp hP.curr
    have hlt : x < t.nextSym := h.heapLt x e hx
    intro hu'
    have hxy := hu' x t.nextSym e ⟨f, UInt16.ofNat name.bytes.length, info, strength, name⟩
      (by rw [(hP.heap f hfc).2, Function.update_of_ne (Nat.ne_of_lt hlt), hx])
      (by rw [(hP.heap f hfc).2, Function.update_self]) hfold
    exact absurd hxy (Nat.ne_of_lt hlt)

/-- the operations other than `AddSym` make no entry -/
theorem step_heap {o : Options} {t t' : Table} (h : Linked t) {op : Op}
    (hs : step o t op = some t') {x : SymId} {e : SymEntry} (hx : t'.heap x = some e) :
    t.heap x = some e ∨ ∃ info, op = .addSym e.name e.strength info ∧ x = t.nextSym ∧
      t.currFile = some e.file := by
  cases op with
  | newSymFile name =>
    left
    have hs' : newSymFile t name = some t' := hs
    rw [newSymFile_eq h] at hs'
    obtain rfl := Option.some.inj hs'
    exact hx
  | addSym name strength info =>
    rcases addSym_heap h hs hx with hxt | ⟨h1, h2, h3, h4⟩
    · exact Or.inl hxt
    · exact Or.inr ⟨info, by rw [h1, h2], h3, h4⟩
  | removeObjectSymbols name =>
    left
    obtain ⟨⟨u, r⟩, hr, rfl⟩ := Option.map_eq_some_iff.mp hs
    rcases removeObjectSymbols_cases h hr with ⟨rfl, -⟩ | ⟨f, -, -, -, hh, -⟩
    · exact hx
    · change u.heap x = some e at hx
      rw [hh] at hx
      dsimp only at hx
      split at hx
      · exact absurd hx (by simp)
      · exact hx
  | cleanFileTab =>
    left
    obtain rfl := Option.some.inj hs
    exact hx

theorem step_unique {o : Options} {t t' : Table} (h : Linked t) (hu : Unique o t) {op : Op}
    (hf : Findable o t op) (hs : step o t op = some t') : Unique o t' := by
  have keep : (∀ x e, t'.heap x = some e → t.heap x = some e) → Unique o t' :=
    fun hk x y d e hx hy => hu x y d e (hk x d hx) (hk y e hy)
  cases op with
  | addSym name strength info => exact addSym_unique h hu hf hs
  | newSymFile name =>
    exact keep fun x e hx => (step_heap h hs hx).resolve_right fun ⟨_, he, _⟩ => Op.noConfusion he
  | removeObjectSymbols name =>
    exact keep fun x e hx => (step_heap h hs hx).resolve_right fun ⟨_, he, _⟩ => Op.noConfusion he
  | cleanFileTab =>
    exact keep fun x e hx => (step_heap h hs hx).resolve_right fun ⟨_, he, _⟩ => Op.noConfusion he

/-! ## runs -/

theorem adds_snoc {o : Options} {t : Table} {ops : List Op} {op : Op} {n : Name} {st : Strength}
    {f : FileId} (h : Adds o t (ops ++ [op]) n st f) :
    Adds o t ops n st f ∨ ∃ u info, run o t ops = some u ∧ op = .addSym n st info := by
  induction ops generalizing t with
  | nil =>
    rcases h with ⟨info, he, -⟩ | ⟨u, -, hu⟩
    · exact Or.inr ⟨t, info, rfl, he⟩
    · exact hu.elim
  | cons p ops ih =>
    rcases h with hp | ⟨u, hs, hu⟩
    · exact Or.inl (Or.inl hp)
    · rcases ih hu with ha | ⟨v, info, hv, he⟩
      · exact Or.inl (Or.inr ⟨u, hs, ha⟩)
      · exact Or.inr ⟨v, info, by rw [run, hs]; exact hv, he⟩

/-- every operation of the run finds the entry of its name -/
def AllFindable (o : Options) (ops : List Op) : Prop :=
  ∀ a op b u, ops = a ++ op :: b → run o initFileTab a = some u → Findable o u op

/-- where an entry comes from: the `AddSym` that made it, and no stronger definition since -/
def Origin (o : Options) (ops : List Op) (x : SymId) (e : SymEntry) : Prop :=
  ∃ a info b u v, ops = a ++ .addSym e.name e.strength info :: b ∧
    run o initFileTab a = some u ∧ step o u (.addSym e.name e.strength info) = some v ∧
    u.heap x = none ∧ v.heap x = some e ∧ u.currFile = some e.file ∧
    ∀ n st f, Adds o u (.addSym e.name e.strength info :: b) n st f →
      folded o e.name = folded o n → st.rank ≤ e.strength.rank

/-- the run invariant -/
theorem run_inv {o : Options} {ops : List Op} (hf : AllFindable o ops) {t : Table}
    (hr : run o initFileTab ops = some t) :
    Linked t ∧ Unique o t ∧ ∀ x e, t.heap x = some e → Origin o ops x e := by
  induction ops using List.reverseRecOn generalizing t with
  | nil =>
    obtain rfl := Option.some.inj hr
    have hno : ∀ x e, initFileTab.heap x ≠ some e := fun x e h => absurd h (by simp [initFileTab])
    exact ⟨linked_init, fun x _ d _ hx => absurd hx (hno x d), fun x e hx => absurd hx (hno x e)⟩
  | append_singleton ops op ih =>
    obtain ⟨w, hw, hs⟩ := run_snoc hr
    have hfo : AllFindable o ops := by
      intro a p b u he hu
      exact hf a p (b ++ [op]) u (by rw [he, List.append_assoc, List.cons_append]) hu
    have hfl : Findable o w op := hf ops op [] w rfl hw
    obtain ⟨hl, hu, ho⟩ := ih hfo hw
    refine ⟨step_linked hl hs, step_unique hl hu hfl hs, fun x e hx => ?_⟩
    rcases step_heap hl hs hx with hxw | ⟨info, rfl, hxn, hcur⟩
    · -- the entry was there: the last operation adds no stronger definition
      obtain ⟨a, info, b, u, v, he, hua, hsv, hxu, hxv, hcur, hle⟩ := ho x e hxw
      refine ⟨a, info, b ++ [op], u, v, ?_, hua, hsv, hxu, hxv, hcur, ?_⟩
      · rw [he, List.append_assoc, List.cons_append]
      · intro n st f hadd hn
        rw [← List.cons_append] at hadd
        rcases adds_snoc hadd with ha | ⟨w', info', hw', rfl⟩
        · exact hle n st f ha hn
        · exact addSym_kept hl hu hfl hs hxw hx hn
    · -- the last operation made the entry
      have hxw : w.heap x = none := by
        rw [hxn]
        exact hl.fresh
      refine ⟨ops, info, [], w, t, rfl, hw, hs, hxw, hx, hcur, ?_⟩
      intro n st f hadd _
      rcases hadd with ⟨info', he, -⟩ | ⟨u', -, hu'⟩
      · obtain ⟨-, h2, -⟩ := Op.addSym.inj he
        rw [← h2]
      · exact hu'.elim

theorem strongest_of_inv {o : Options} {ops : List Op} {t : Table} (hl : Linked t)
    (ho : ∀ x e, t.heap x = some e → Origin o ops x e) : Strongest o ops t := by
  intro x e hx
  obtain ⟨a, info, b, u, v, he, hua, hsv, hxu, hxv, hcur, hle⟩ := ho x e hx
  refine ⟨a, .addSym e.name e.strength info, b, u, v, he, hua, hsv, hxu, hxv, ?_, ?_⟩
  · refine ⟨e.name, e.strength, e.file, Or.inl ⟨info, rfl, hcur⟩, hl.file_mem hx, ?_, rfl⟩
    exact (symbolNameCmp_eq_zero o _ _).mpr rfl
  · rintro k ⟨n, st, f, hadd, -, hn, rfl⟩
    exact hle n st f hadd ((symbolNameCmp_eq_zero o _ _).mp hn)

/-- in every state of a run each name has one entry, with the greatest strength and on its two
lists, exactly when the run adds no name whose entry is in another bucket -/
theorem table_sound_iff (o : Options) {ops : List Op} {t : Table}
    (hr : run o initFileTab ops = some t) :
    (∀ a b u, ops = a ++ b → run o initFileTab a = some u → Consistent o u ∧ Strongest o a u) ↔
      AllFindable o ops := by
  constructor
  · intro hc a op b u he hu
    by_contra hbad
    have hlu : Linked u := run_linked linked_init hu
    have huu : Unique o u := (unique_iff o u).mp (hc a (op :: b) u he hu).1.unique
    -- the run goes on behind the operation
    rw [he, run_append, hu, Option.bind_some] at hr
    obtain ⟨v, hv, -⟩ := Option.bind_eq_some_iff.mp hr
    have hrv : run o initFileTab (a ++ [op]) = some v := by
      rw [run_append, hu, Option.bind_some]
      exact Option.bind_eq_some_iff.mpr ⟨v, hv, rfl⟩
    have huv : Unique o v := (unique_iff o v).mp
      (hc (a ++ [op]) b v (by rw [he, List.append_assoc, List.singleton_append]) hrv).1.unique
    cases op with
    | addSym name strength info => exact addSym_not_unique hlu huu hbad hv huv
    | newSymFile name => exact hbad trivial
    | removeObjectSymbols name => exact hbad trivial
    | cleanFileTab => exact hbad trivial
  · intro hf a b u he hu
    have hfa : AllFindable o a := by
      intro a' p b' w ha hw
      exact hf a' p (b' ++ b) w (by rw [he, ha, List.append_assoc, List.cons_append]) hw
    obtain ⟨hl, huq, ho⟩ := run_inv hfa hu
    exact ⟨hl.consistent huq, strongest_of_inv hl ho⟩

/-- a weak symbol that a second file defines, and the first file removed -/
theorem table_sound_weak : ∃ t, run ⟨false, true⟩ initFileTab
      [.newSymFile ⟨[0x61], by decide⟩, .addSym ⟨[0x66, 0x6f], by decide⟩ .weak 0,
        .newSymFile ⟨[0x62], by decide⟩, .addSym ⟨[0x66, 0x6f], by decide⟩ .strong 0,
        .removeObjectSymbols ⟨[0x41], by decide⟩, .cleanFileTab] = some t ∧
    ((∀ a b u, [.newSymFile ⟨[0x61], by decide⟩, .addSym ⟨[0x66, 0x6f], by decide⟩ .weak 0,
        .newSymFile ⟨[0x62], by decide⟩, .addSym ⟨[0x66, 0x6f], by decide⟩ .strong 0,
        .removeObjectSymbols ⟨[0x41], by decide⟩, .cleanFileTab] = a ++ b →
      run ⟨false, true⟩ initFileTab a = some u →
      Consistent ⟨false, true⟩ u ∧ Strongest ⟨false, true⟩ a u) ↔
    AllFindable ⟨false, true⟩ [.newSymFile ⟨[0x61], by decide⟩,
        .addSym ⟨[0x66, 0x6f], by decide⟩ .weak 0, .newSymFile ⟨[0x62], by decide⟩,
        .addSym ⟨[0x66, 0x6f], by decide⟩ .strong 0, .removeObjectSymbols ⟨[0x41], by decide⟩,
        .cleanFileTab]) :=
  ⟨_, rfl, table_sound_iff ⟨false, true⟩ rfl⟩

/-- without regard to case, `A` and `a` get an entry each -/
theorem two_entries_of_one_name : ∃ t, run ⟨false, true⟩ initFileTab
      [.newSymFile ⟨[0x78], by decide⟩, .addSym ⟨[0x41], by decide⟩ .strong 0,
        .addSym ⟨[0x61], by decide⟩ .strong 0] = some t ∧ ¬ Consistent ⟨false, true⟩ t :=
  ⟨_, rfl, fun h => absurd (h.unique 0 1 _ _ rfl rfl rfl) (by decide)⟩

end Nwlib
