import OpenWatcom.X64Obj.Elf
import OpenWatcom.X64Obj.Fixupp

/-!
# The external table and the relocations of an object

* `externs`       the externals of an object, in the order in which indices number them;
* `readExterns`   as many of them as Pass 1 reads from the EXTDEF records without losing its place;
* `exts_read`     the external table begins with their names, up to 64;
* `fixups_carried`   which FIXUPP records are read exactly.
-/

namespace X64Obj
open Bytes Stride

/-! ## the externals -/

def Item.externs : Item → List (List UInt8)
  | .extdef _ names => names.map Prod.fst
  | .comdef _ _ names => names
  | _ => []

def externs (recs : List Rec) : List (List UInt8) := recs.flatMap fun r => r.item.externs

/-- a name as it is plainName, without the Watcom suffix -/
def plainName (name : List UInt8) : List UInt8 :=
  cstr (if name.length > 1 ∧ byteAt name (name.length - 1) = 0x5F then
    name.take (name.length - 1) else name)

/-- the external table has the name of external `x` in its place -/
def InTable (recs : List Rec) (x : Index) : Prop :=
  0 < x.val ∧ x.val ≤ (externs recs).length ∧
    (parse (objectOf recs)).image.exts[x.val - 1]? = ((externs recs)[x.val - 1]?).map plainName

instance (recs : List Rec) : DecidablePred (InTable recs) := fun _ =>
  inferInstanceAs (Decidable (_ ∧ _ ∧ _))

/-- the names of one EXTDEF record up to an empty one or one with a type index of two bytes before
another, and whether that was all -/
def readNames : List (List UInt8 × Index) → List (List UInt8) × Bool
  | [] => ([], true)
  | (name, type) :: rest =>
    if name = [] then ([], false)
    else if type.two = true ∧ rest ≠ [] then ([name], false)
    else (name :: (readNames rest).1, (readNames rest).2)

def readStep (st : List (List UInt8) × Bool) (r : Rec) : List (List UInt8) × Bool :=
  if st.2 then
    match r.item with
    | .extdef _ names => (st.1 ++ (readNames names).1, (readNames names).2)
    | .comdef _ _ names => (st.1, names = [])
    | _ => st
  else st

/-- the externals up to the first place where Pass 1 loses count -/
def readExterns (recs : List Rec) : List (List UInt8) := (recs.foldl readStep ([], true)).1

/-- external `x` is one of these, and one of the first 64 -/
def Readable (recs : List Rec) (x : Index) : Prop :=
  0 < x.val ∧ x.val ≤ min 64 (readExterns recs).length

instance (recs : List Rec) : DecidablePred (Readable recs) := fun _ =>
  inferInstanceAs (Decidable (_ ∧ _))

theorem readNames_prefix (names : List (List UInt8 × Index)) :
    (readNames names).1 <+: names.map Prod.fst ∧
      ((readNames names).2 = true → (readNames names).1 = names.map Prod.fst) := by
  induction names with
  | nil => exact ⟨List.prefix_rfl, fun _ => rfl⟩
  | cons e rest ih =>
    obtain ⟨name, type⟩ := e
    rw [readNames, List.map_cons]
    split
    · exact ⟨List.nil_prefix, fun h => absurd h (by simp)⟩
    · split
      · exact ⟨⟨rest.map Prod.fst, rfl⟩, fun h => absurd h (by simp)⟩
      · refine ⟨List.cons_prefix_cons.mpr ⟨rfl, ih.1⟩, fun h => ?_⟩
        rw [ih.2 h]

theorem readExterns_prefix (recs : List Rec) : readExterns recs <+: externs recs := by
  have key : (recs.foldl readStep ([], true)).1 <+: externs recs ∧
      ((recs.foldl readStep ([], true)).2 = true →
        (recs.foldl readStep ([], true)).1 = externs recs) := by
    induction recs using List.reverseRecOn with
    | nil => exact ⟨List.prefix_rfl, fun _ => rfl⟩
    | append_singleton recs r ih =>
      have e : externs (recs ++ [r]) = externs recs ++ r.item.externs := by
        rw [externs, List.flatMap_append, List.flatMap_singleton, externs]
      rw [List.foldl_append, List.foldl_cons, List.foldl_nil, e]
      generalize recs.foldl readStep ([], true) = st at *
      rw [readStep]
      split
      · next hst =>
        have hst := ih.2 hst
        cases h : r.item with
        | extdef isLocal names =>
          have hn := readNames_prefix names
          show _ ++ _ <+: externs recs ++ names.map Prod.fst ∧ _
          rw [hst]
          refine ⟨(List.prefix_append_right_inj _).mpr hn.1, fun h => ?_⟩
          show externs recs ++ (readNames names).1 = externs recs ++ names.map Prod.fst
          rw [hn.2 h]
        | comdef rt body names =>
          refine ⟨ih.1.trans (List.prefix_append _ _), fun h => ?_⟩
          have hnil : names = [] := of_decide_eq_true h
          show st.1 = _
          rw [hst, hnil]
          exact (List.append_nil _).symm
        | _ =>
          simp only [Item.externs, List.append_nil]
          exact ⟨ih.1, fun _ => hst⟩
      · next hst => exact ⟨ih.1.trans (List.prefix_append _ _), fun h => absurd h hst⟩
  exact key.1

/-! ## one EXTDEF record -/

theorem extLoop_succ (omf : List UInt8) (stop f j : Nat) (exts : List (List UInt8)) :
    extLoop omf stop (f + 1) j exts =
      if j < stop ∧ exts.length < 64 then
        if 0 < (byteAt omf j).toNat ∧ j + 1 + (byteAt omf j).toNat ≤ stop then
          extLoop omf stop f (if j + 1 + (byteAt omf j).toNat < stop then
              j + 1 + (byteAt omf j).toNat + 1 else j + 1 + (byteAt omf j).toNat)
            (exts ++ [symName omf (j + 1) (byteAt omf j).toNat])
        else extLoop omf stop f (if j + 1 < stop then j + 1 + 1 else j + 1) exts
      else exts := rfl

theorem extLoop_extends (omf : List UInt8) (stop f j : Nat) (exts : List (List UInt8)) :
    exts <+: extLoop omf stop f j exts := by
  induction f generalizing j exts with
  | zero => exact List.prefix_rfl
  | succ f ih =>
    rw [extLoop_succ]
    split
    · split
      · exact (List.prefix_append _ _).trans (ih _ _)
      · exact ih _ _
    · exact List.prefix_rfl

/-- one byte before the end there is no name any more -/
theorem extLoop_last (omf : List UInt8) (f j : Nat) (exts : List (List UInt8)) :
    extLoop omf (j + 1) f j exts = exts := by
  cases f with
  | zero => rfl
  | succ f =>
    rw [extLoop_succ]
    split
    · rw [if_neg (by omega), if_neg (by omega)]
      cases f with
      | zero => rfl
      | succ f => rw [extLoop, if_neg (by omega)]
    · rfl

/-- the names Pass 1 reads from an EXTDEF record -/
theorem extLoop_read {omf : List UInt8} (names : List (List UInt8 × Index)) (a b : List UInt8)
    (exts : List (List UInt8)) (f : Nat) (hnames : ∀ e ∈ names, e.1.length < 256)
    (e : omf = a ++ (names.flatMap extdefEntry ++ b))
    (hf : (names.flatMap extdefEntry).length < f) (hexts : exts.length ≤ 64) :
    let res := extLoop omf (a.length + (names.flatMap extdefEntry).length) f a.length exts
    (exts ++ (readNames names).1.map plainName).take 64 <+: res ∧
      ((readNames names).2 = true → res = (exts ++ (readNames names).1.map plainName).take 64) := by
  induction names generalizing a exts f with
  | nil =>
    obtain ⟨f, rfl⟩ : ∃ g, f = g + 1 := ⟨f - 1, by omega⟩
    dsimp only
    rw [extLoop, if_neg (by simp), readNames, List.map_nil, List.append_nil,
      List.take_of_length_le hexts]
    exact ⟨List.prefix_rfl, fun _ => rfl⟩
  | cons entry names ih =>
    obtain ⟨name, type⟩ := entry
    obtain ⟨f, rfl⟩ : ∃ g, f = g + 1 := ⟨f - 1, by omega⟩
    have hlen : name.length < 256 := hnames (name, type) List.mem_cons_self
    have ht := type.bytes_length
    have hsize : (((name, type) :: names).flatMap extdefEntry).length
        = 1 + name.length + type.bytes.length + (names.flatMap extdefEntry).length := by
      rw [List.flatMap_cons, List.length_append]
      show (name ++ type.bytes).length + 1 + _ = _
      rw [List.length_append]
      omega
    have htpos : 0 < type.bytes.length := by
      rw [ht]
      split <;> decide
    rw [hsize] at hf ⊢
    dsimp only
    rw [extLoop_succ]
    by_cases h64 : exts.length < 64
    · -- the length byte and the name
      have e1 : omf = a ++ (UInt8.ofNat name.length :: (name ++ (type.bytes ++
          (names.flatMap extdefEntry ++ b)))) := by
        rw [e, List.flatMap_cons, extdefEntry]
        simp
      have hnl : (byteAt omf a.length).toNat = name.length := by
        have h := byteAt_mid a (UInt8.ofNat name.length :: (name ++ (type.bytes ++
          (names.flatMap extdefEntry ++ b)))) 0
        rw [Nat.add_zero, ← e1] at h
        rw [h, byteAt_cons_zero]
        exact UInt8.toNat_ofNat_of_lt' hlen
      have hname : symName omf (a.length + 1) name.length = plainName name := by
        have h := slice_append (a ++ [UInt8.ofNat name.length]) name
          (type.bytes ++ (names.flatMap extdefEntry ++ b))
        rw [List.append_assoc, List.singleton_append, ← e1, List.length_append,
          List.length_singleton] at h
        rw [symName, plainName, h]
      rw [if_pos ⟨by omega, h64⟩, hnl, readNames]
      by_cases hempty : name = []
      · rw [if_pos hempty, if_neg (by rw [hempty]; simp), List.map_nil, List.append_nil,
          List.take_of_length_le hexts]
        exact ⟨extLoop_extends _ _ _ _ _, fun h => absurd h (by simp)⟩
      have hread : 0 < name.length ∧ a.length + 1 + name.length ≤ a.length +
          (1 + name.length + type.bytes.length + (names.flatMap extdefEntry).length) :=
        ⟨List.length_pos_iff.mpr hempty, by omega⟩
      have htype : a.length + 1 + name.length < a.length +
          (1 + name.length + type.bytes.length + (names.flatMap extdefEntry).length) := by
        omega
      rw [if_neg hempty, if_pos hread, hname, if_pos htype]
      have hexts' : (exts ++ [plainName name]).length ≤ 64 := by
        rw [List.length_append, List.length_singleton]
        omega
      by_cases htwo : type.two = true
      · rw [if_pos htwo] at ht
        by_cases hrest : names = []
        · -- the second byte of the type index stands last
          have hlast : a.length + (1 + name.length + type.bytes.length +
              (names.flatMap extdefEntry).length) = a.length + 1 + name.length + 1 + 1 := by
            rw [ht, hrest, List.flatMap_nil, List.length_nil]
            omega
          have hgo : ¬ (type.two = true ∧ names ≠ []) := fun h => h.2 hrest
          rw [if_neg hgo, hlast, extLoop_last, hrest]
          show (exts ++ [plainName name]).take 64 <+: _ ∧ (_ → _ = (exts ++ [plainName name]).take 64)
          rw [List.take_of_length_le hexts']
          exact ⟨List.prefix_rfl, fun _ => rfl⟩
        · have hgo : type.two = true ∧ names ≠ [] := ⟨htwo, hrest⟩
          rw [if_pos hgo, List.map_cons, List.map_nil, List.take_of_length_le hexts']
          exact ⟨extLoop_extends _ _ _ _ _, fun h => absurd h (by simp)⟩
      · rw [if_neg htwo] at ht
        have ih := ih (a ++ UInt8.ofNat name.length :: (name ++ type.bytes))
          (exts ++ [plainName name]) f (fun e he => hnames e (List.mem_cons_of_mem _ he))
          (by rw [e1]; simp) (by omega) hexts'
        have hj : (a ++ UInt8.ofNat name.length :: (name ++ type.bytes)).length
            = a.length + 1 + name.length + 1 := by
          rw [List.length_append, List.length_cons, List.length_append, ht]
          omega
        rw [hj, List.append_assoc, List.singleton_append, ← List.map_cons] at ih
        have hgo : ¬ (type.two = true ∧ names ≠ []) := fun h => htwo h.1
        rw [if_neg hgo, ht, show a.length + (1 + name.length + 1 +
          (names.flatMap extdefEntry).length) = a.length + 1 + name.length + 1 +
          (names.flatMap extdefEntry).length by omega]
        exact ih
    · rw [if_neg (fun h => h64 h.2), List.take_append_of_le_length (by omega),
        List.take_of_length_le hexts]
      exact ⟨List.prefix_rfl, fun _ => rfl⟩

/-! ## the external table -/

section
variable (pre post : List Rec) {r : Rec}

theorem isExtdef_extdef {isLocal : Bool} {names : List (List UInt8 × Index)}
    (hi : r.item = .extdef isLocal names) :
    isLedata (objectOf (pre ++ r :: post)) (objectOf pre).length = false ∧
      isPubdef (objectOf (pre ++ r :: post)) (objectOf pre).length = false ∧
      isExtdef (objectOf (pre ++ r :: post)) (objectOf pre).length = true := by
  rw [isLedata, isPubdef, isExtdef, Rec.type_at, hi]
  cases isLocal <;> exact ⟨rfl, rfl, rfl⟩

/-- a record that is no EXTDEF is not taken for one -/
theorem isExtdef_other (hr : r.Ok) (hi : ∀ isLocal names, r.item ≠ .extdef isLocal names) :
    isExtdef (objectOf (pre ++ r :: post)) (objectOf pre).length = false := by
  rw [isExtdef, Rec.type_at]
  have hok := hr.2
  cases h : r.item with
  | ledata wide _ _ _ => cases wide <;> rfl
  | extdef isLocal names => exact absurd h (hi _ _)
  | comdef rt _ _ =>
    rw [h] at hok
    rcases hok with rfl | rfl | rfl <;> rfl
  | fixupp wide _ => cases wide <;> rfl
  | other rt _ =>
    rw [h] at hok
    simp only [Item.Ok, isListed, Bool.or_eq_false_iff] at hok
    show (decide (rt = 0x8C) || decide (rt = 0xB4)) = false
    rw [hok.1.1.1.1.1.1.2, hok.1.1.1.1.1.2]
    rfl

variable (s : Segs) (im : Image)

/-- Pass 1 leaves the external table alone at a record that is no EXTDEF -/
theorem pass1Step_exts (hr : r.Ok) (hi : ∀ isLocal names, r.item ≠ .extdef isLocal names) :
    (pass1Step (objectOf (pre ++ r :: post)) s im (objectOf pre).length).exts = im.exts := by
  have h := isExtdef_other pre post hr hi
  rw [pass1Step, h]
  split
  · rw [ledataStep]
    dsimp only
    split
    · split
      · rfl
      · split <;> rfl
    · rfl
  · split
    · rfl
    · simp

/-- Pass 1 at an EXTDEF record -/
theorem pass1Step_extdef (hr : r.Ok) {isLocal : Bool} {names : List (List UInt8 × Index)}
    (hi : r.item = .extdef isLocal names) (hexts : im.exts.length ≤ 64) :
    let res := (pass1Step (objectOf (pre ++ r :: post)) s im (objectOf pre).length).exts
    (im.exts ++ (readNames names).1.map plainName).take 64 <+: res ∧
      ((readNames names).2 = true →
        res = (im.exts ++ (readNames names).1.map plainName).take 64) := by
  obtain ⟨h1, h2, h3⟩ := isExtdef_extdef pre post hi
  obtain ⟨a, b, e, ha⟩ := Rec.body_at pre post r
  have hlen := Rec.recLen_at pre post hr
  have hend := Rec.recEnd_at pre post hr
  have hnames := hr.2
  rw [hi] at e hlen hend hnames
  rw [pass1Step, h1, h2, h3]
  by_cases h64 : im.exts.length < 64
  · have hread := extLoop_read names a b im.exts
      (recLen (objectOf (pre ++ r :: post)) (objectOf pre).length) hnames e
      (by rw [hlen]; exact Nat.lt_succ_self _) hexts
    rw [ha, ← show recEnd _ _ = _ + (names.flatMap extdefEntry).length from hend] at hread
    simpa [h64, extdefStep] using hread
  · simp only [Bool.false_eq_true, if_false, false_and, true_and, if_neg h64]
    rw [List.take_append_of_le_length (by omega), List.take_of_length_le hexts]
    exact ⟨List.prefix_rfl, fun _ => rfl⟩

end

theorem extLoop_length (omf : List UInt8) (stop f j : Nat) (exts : List (List UInt8))
    (h : exts.length ≤ 64) : (extLoop omf stop f j exts).length ≤ 64 := by
  induction f generalizing j exts with
  | zero => exact h
  | succ f ih =>
    rw [extLoop_succ]
    split
    · split
      · refine ih _ _ ?_
        rw [List.length_append, List.length_singleton]
        omega
      · exact ih _ _ h
    · exact h

theorem pass1Step_length (omf : List UInt8) (s : Segs) (im : Image) (i : Nat)
    (h : im.exts.length ≤ 64) : (pass1Step omf s im i).exts.length ≤ 64 := by
  rw [pass1Step]
  split
  · rw [ledataStep]
    dsimp only
    split
    · split
      · exact h
      · split <;> exact h
    · exact h
  · split
    · exact h
    · split
      · exact extLoop_length _ _ _ _ _ h
      · exact h

theorem take_append_take (x y : List (List UInt8)) :
    (x.take 64 ++ y).take 64 = (x ++ y).take 64 := by
  rw [List.take_append, List.take_append, List.take_take, List.length_take]
  congr 1
  rcases Nat.le_total x.length 64 with h | h
  · rw [Nat.min_eq_right h]
  · rw [Nat.min_eq_left h, Nat.sub_self, show 64 - x.length = 0 by omega]

/-- the external table begins with the externals that can be read, up to 64 -/
theorem exts_read {recs : List Rec} (hok : ObjOk recs) :
    ((readExterns recs).map plainName).take 64 <+: (parse (objectOf recs)).image.exts := by
  have key := prefix_induction (P := fun pre =>
    let st := pre.foldl readStep ([], true)
    let exts := (imageAt (objectOf recs) (objectOf pre).length).exts
    exts.length ≤ 64 ∧ (st.1.map plainName).take 64 <+: exts ∧
      (st.2 = true → exts = (st.1.map plainName).take 64))
    ⟨Nat.zero_le _, List.prefix_rfl, fun _ => rfl⟩ ?_ recs [] (List.append_nil _).symm
  · rw [image_eq hok]
    exact key.2.1
  rintro pre r post rfl ⟨hlen, hpre, heq⟩
  have hr := hok.mid
  dsimp only
  rw [imageAt_snoc hok rfl, List.foldl_append, List.foldl_cons, List.foldl_nil]
  generalize pre.foldl readStep ([], true) = st at *
  generalize imageAt (objectOf (pre ++ r :: post)) (objectOf pre).length = im at *
  refine ⟨pass1Step_length _ _ _ _ hlen, ?_⟩
  by_cases hext : ∃ isLocal names, r.item = .extdef isLocal names
  · obtain ⟨isLocal, names, hi⟩ := hext
    obtain ⟨h1, h2⟩ := pass1Step_extdef pre post (pass0 (objectOf (pre ++ r :: post))) im hr hi hlen
    rw [readStep]
    split
    · next hst =>
      rw [hi]
      dsimp only
      rw [heq hst, take_append_take, ← List.map_append] at h1 h2
      exact ⟨h1, h2⟩
    · next hst =>
      refine ⟨hpre.trans (List.IsPrefix.trans ?_ h1), fun h => absurd h hst⟩
      rw [List.take_append, List.take_of_length_le hlen]
      exact List.prefix_append _ _
  · rw [pass1Step_exts pre post _ _ hr (fun isLocal names hi => hext ⟨isLocal, names, hi⟩), readStep]
    split
    · next hst =>
      cases hi : r.item with
      | extdef isLocal names => exact absurd ⟨isLocal, names, hi⟩ hext
      | _ => exact ⟨hpre, fun _ => heq hst⟩
    · exact ⟨hpre, heq⟩

/-- an external that can be read has its name in its place -/
theorem Readable.inTable {recs : List Rec} (hok : ObjOk recs) {x : Index} (h : Readable recs x) :
    InTable recs x := by
  obtain ⟨h1, h2⟩ := h
  obtain ⟨rest, hrest⟩ := exts_read hok
  obtain ⟨rest', hrest'⟩ := readExterns_prefix recs
  have hlt : x.val - 1 < (readExterns recs).length := by omega
  refine ⟨h1, ?_, ?_⟩
  · rw [← hrest', List.length_append]
    omega
  · rw [← hrest, ← hrest', List.getElem?_append_left (by rw [List.length_take, List.length_map]; omega),
      List.getElem?_append_left hlt, List.getElem?_take, if_pos (by omega), List.getElem?_map]

theorem InTable.bounds {recs : List Rec} {x : Index} (h : InTable recs x) :
    0 < x.val ∧ x.val ≤ (parse (objectOf recs)).image.exts.length := by
  obtain ⟨h1, h2, h3⟩ := h
  have hlt : x.val - 1 < (externs recs).length := by omega
  rw [List.getElem?_eq_getElem hlt, Option.map_some] at h3
  have := (List.getElem?_eq_some_iff.mp h3).1
  omega

/-! ## the relocations -/

section
variable {named named' : Index → Prop} (h : ∀ x, named x → named' x)
include h

theorem Attributed.mono (s : Subrec) (hs : Attributed named s) : Attributed named' s := by
  unfold Attributed at hs ⊢
  split
  · exact h _ hs
  · trivial

theorem SubsFit.mono {t : Tally} {subs : List Subrec} (hs : SubsFit named t subs) :
    SubsFit named' t subs := by
  induction subs generalizing t with
  | nil => trivial
  | cons s subs ih =>
    obtain ⟨h1, ⟨h2, h3, h4⟩, h5⟩ := hs
    exact ⟨h1, ⟨h2, h3, Attributed.mono h s h4⟩, ih h5⟩

theorem RecsFit.mono {s : Segs} {t : Tally} {recs : List Rec} (hs : RecsFit named s t recs) :
    RecsFit named' s t recs := by
  induction recs generalizing t with
  | nil => trivial
  | cons r recs ih =>
    obtain ⟨h1, h2⟩ := hs
    refine ⟨?_, ih h2⟩
    unfold RecFits at h1 ⊢
    split
    · next hi =>
      rw [hi] at h1
      exact SubsFit.mono h h1
    · trivial

end

/-- every FIXUPP record is read exactly, its relocations recorded once and for their own externals,
if the subrecords fit and their externals can be read; and only if the subrecords fit and their
externals have their names in their places -/
theorem fixups_carried (recs : List Rec) (hok : ObjOk recs) :
    (AllFit recs (Readable recs) → AllCarried recs (InTable recs)) ∧
      (AllCarried recs (InTable recs) → AllFit recs (InTable recs)) := by
  have hiff := carried_iff_fits recs hok (InTable recs) fun _ h => h.bounds
  exact ⟨fun h => hiff.mpr (RecsFit.mono (fun _ => Readable.inTable hok) h), hiff.mp⟩

/-! ## two objects -/

/-- an object with a code segment, an external `y`, one instruction and the subrecords `subs` -/
def fixupObject (subs : List Subrec) : List Rec :=
  [⟨.other 0x96 [4, 0x43, 0x4F, 0x44, 0x45], 0⟩, ⟨.other 0x99 [0xA9, 6, 0, 0, 0, 1, 1, 1], 0⟩,
    ⟨.extdef false [([0x79], ⟨false, 0, by decide⟩)], 0⟩,
    ⟨.ledata true ⟨false, 1, by decide⟩ 0 [0x8B, 0x05, 0, 0, 0, 0], 0⟩, ⟨.fixupp true subs, 0⟩]

/-- a FIXUP of `y`, its frame that of the target -/
def fixupOfY : Subrec := .fixup true 9 2 .target (.external ⟨false, 1, by decide⟩) none

theorem carried_fixup : AllCarried (fixupObject [fixupOfY]) (InTable (fixupObject [fixupOfY])) :=
  (fixups_carried (fixupObject [fixupOfY]) (by decide)).1 (by decide)

/-- behind a THREAD of one byte the FIXUP is lost -/
theorem fixup_after_thread :
    let recs := fixupObject [.bareThread true 0, fixupOfY]
    ObjOk recs ∧ InTable recs ⟨false, 1, by decide⟩ ∧
      (parse (objectOf recs)).relocs = ⟨[], []⟩ ∧ ¬ AllCarried recs (InTable recs) := by
  refine ⟨by decide, by decide, by decide, ?_⟩
  intro h
  have hfits := (carried_iff_fits (fixupObject [.bareThread true 0, fixupOfY]) (by decide)
    (InTable _) fun _ h => h.bounds).mp h
  exact absurd hfits (by decide)

end X64Obj
