import OpenWatcom.Lib.Packing
import OpenWatcom.X64Obj.Elf
import OpenWatcom.X64Obj.OmfRecords

/-!
# The data image

The bytes of the data segments are packed in the order of their LEDATA records.

* `Placed`       the bytes of a record lie where its enumerated offset says;
* `InSequence`   the record continues its segment, and no other segment came between;
* `imageAt_runs`, `relocsAt_runs`   the data image and the chunk bases, by the runs packed;
* `placed_iff`   the bytes lie where they should exactly when the record is in sequence;
* `Placed.slice`   where they then are in the finished image.
-/

namespace X64Obj
open Bytes Packing

/-! ## what should hold -/

/-- the bytes `data` that the record at `k` emits for segment `z` at offset `off` go to
`seg_base[z] + off`, and a fixup behind the record counts from there -/
structure Placed (omf : List UInt8) (k z off : Nat) (data : List UInt8) : Prop where
  bytes : (imageAt omf (recNext omf k)).data = (imageAt omf k).data ++ data
  pos : ((imageAt omf k).data.length : Int) = (parse omf).image.segBase z + off
  notText : (relocsAt omf (recNext omf k)).1.isText = false
  chunk : (relocsAt omf (recNext omf k)).1.dbase = (parse omf).image.segBase z + off

/-- a data segment whose bytes go to the data image -/
def IsPacked (s : Segs) (z : Nat) : Prop := z ≠ s.textSegIdx ∧ s.segIsData z = true

instance (s : Segs) (z : Nat) : Decidable (IsPacked s z) := inferInstanceAs (Decidable (_ ∧ _))

/-- what a record adds to the data image: its segment and its size -/
def run (s : Segs) (r : Rec) : List (Nat × Nat) :=
  match r.item with
  | .ledata _ seg _ data =>
    if IsPacked s seg.val ∧ data ≠ [] then [(seg.val, data.length)] else []
  | _ => []

def runs (s : Segs) (recs : List Rec) : List (Nat × Nat) := recs.flatMap (run s)

/-- the offset `off` is the number of bytes of segment `z` in the records `pre`, and these form
one block -/
def InSequence (s : Segs) (pre : List Rec) (z off : Nat) : Prop :=
  IsPacked s z ∧ sizeOf (runs s pre) z = off ∧ InOneBlock (runs s pre) z

instance (s : Segs) (pre : List Rec) (z off : Nat) : Decidable (InSequence s pre z off) :=
  inferInstanceAs (Decidable (_ ∧ _ ∧ _))

theorem runs_snoc (s : Segs) (pre : List Rec) (r : Rec) :
    runs s (pre ++ [r]) = runs s pre ++ run s r := by
  rw [runs, List.flatMap_append, List.flatMap_singleton, runs]

theorem run_pos (s : Segs) (r : Rec) : ∀ x ∈ run s r, 0 < x.2 := by
  intro x hx
  rw [run] at hx
  split at hx
  · split at hx
    · next h =>
      rw [List.mem_singleton] at hx
      rw [hx]
      exact List.length_pos_iff.mpr h.2
    · exact absurd hx List.not_mem_nil
  · exact absurd hx List.not_mem_nil

theorem runs_pos (s : Segs) (recs : List Rec) : ∀ x ∈ runs s recs, 0 < x.2 := by
  intro x hx
  obtain ⟨r, _, h⟩ := List.mem_flatMap.mp hx
  exact run_pos s r x h

theorem run_packed (s : Segs) (r : Rec) : ∀ x ∈ run s r, IsPacked s x.1 := by
  intro x hx
  rw [run] at hx
  split at hx
  · split at hx
    · next h =>
      rw [List.mem_singleton] at hx
      rw [hx]
      exact h.1
    · exact absurd hx List.not_mem_nil
  · exact absurd hx List.not_mem_nil

/-- only segments 1 to 63 are known to hold data -/
theorem pass0_segIsData (omf : List UInt8) (z : Nat) (h : (pass0 omf).segIsData z = true) :
    0 < z ∧ z < 64 := by
  revert h
  rw [pass0]
  generalize lnames omf = names
  have step : ∀ (s : Segs) i, (∀ z, s.segIsData z = true → 0 < z ∧ z < 64) →
      ∀ z, (segdefStep omf names s i).segIsData z = true → 0 < z ∧ z < 64 := by
    intro s i ih z
    rw [segdefStep]
    split
    · dsimp only
      split
      · next h =>
        by_cases hz : z = s.segNum + 1
        · intro _
          exact ⟨by omega, hz ▸ h.2⟩
        · rw [Function.update_of_ne hz]
          exact ih z
      · exact ih z
    · exact ih z
  have all : ∀ (ks : List Nat) (s : Segs), (∀ z, s.segIsData z = true → 0 < z ∧ z < 64) →
      ∀ z, (ks.foldl (segdefStep omf names) s).segIsData z = true → 0 < z ∧ z < 64 := by
    intro ks
    induction ks with
    | nil => exact fun s h => h
    | cons k ks ih => exact fun s h => ih _ (step s k h)
  exact all _ _ (fun z h => absurd h (by simp)) z

/-! ## Pass 1 -/

section
variable (pre post : List Rec) {r : Rec} (im : Image)

/-- Pass 1 leaves the data image alone at a record that packs nothing -/
theorem pass1Step_idle (hr : r.Ok) (hrun : run (pass0 (objectOf (pre ++ r :: post))) r = []) :
    (pass1Step (objectOf (pre ++ r :: post)) (pass0 (objectOf (pre ++ r :: post))) im
        (objectOf pre).length).data = im.data ∧
      (pass1Step (objectOf (pre ++ r :: post)) (pass0 (objectOf (pre ++ r :: post))) im
        (objectOf pre).length).segBase = im.segBase := by
  rw [pass1Step]
  by_cases hled : isLedata (objectOf (pre ++ r :: post)) (objectOf pre).length = true
  · rw [if_pos hled]
    cases h : r.item with
    | ledata wide seg off data =>
      obtain ⟨h1, h2, _, _⟩ := ledataAt_eq pre post hr h
      rw [run, h] at hrun
      rw [ledataStep, h1, h2]
      generalize pass0 (objectOf (pre ++ r :: post)) = s at *
      dsimp only at hrun ⊢
      split
      · split
        · exact ⟨rfl, rfl⟩
        · next hne =>
          split
          · next hd =>
            exfalso
            rw [if_pos ⟨⟨hne, hd.2.2⟩, List.length_pos_iff.mp (by omega)⟩] at hrun
            exact List.cons_ne_nil _ _ hrun
          · exact ⟨rfl, rfl⟩
      · exact ⟨rfl, rfl⟩
    | _ =>
      rw [isLedata_other pre post hr (by simp [h])] at hled
      exact absurd hled (by decide)
  · rw [if_neg hled]
    split
    · exact ⟨rfl, rfl⟩
    · split <;> exact ⟨rfl, rfl⟩

/-- Pass 1 packs the bytes of a data segment -/
theorem pass1Step_packs (hr : r.Ok) {wide : Bool} {seg : Index} {off : Nat} {data : List UInt8}
    (hi : r.item = .ledata wide seg off data) (hne : data ≠ [])
    (hp : IsPacked (pass0 (objectOf (pre ++ r :: post))) seg.val) :
    pass1Step (objectOf (pre ++ r :: post)) (pass0 (objectOf (pre ++ r :: post))) im
        (objectOf pre).length
      = { im with
          segBase := if im.segBase seg.val < 0 then
            Function.update im.segBase seg.val (im.data.length : Int) else im.segBase
          data := im.data ++ data } := by
  obtain ⟨h1, h2, h3, h4⟩ := ledataAt_eq pre post hr hi
  have hz := pass0_segIsData _ _ hp.2
  have hl := List.length_pos_iff.mpr hne
  rw [pass1Step, if_pos (isLedata_ledata pre post hi), ledataStep, h1, h2, if_pos (by omega),
    if_neg hp.1, if_pos ⟨hz.1, by omega, hp.2⟩, Int.toNat_natCast, h4]

end

/-- the data image holds the runs `L`, and `seg_base` says where the segments start in it -/
def Holds (im : Image) (L : List (Nat × Nat)) : Prop :=
  im.data.length = total L ∧
    ∀ z < 64, im.segBase z = if z ∈ L.map Prod.fst then (start L z : Int) else -1

/-- one run more -/
theorem Holds.pack {im : Image} {L : List (Nat × Nat)} (h : Holds im L) {z : Nat} (hz : z < 64)
    (data : List UInt8) :
    Holds { im with
      segBase := if im.segBase z < 0 then
        Function.update im.segBase z (im.data.length : Int) else im.segBase
      data := im.data ++ data } (L ++ [(z, data.length)]) := by
  obtain ⟨hlen, hbase⟩ := h
  refine ⟨?_, ?_⟩
  · rw [List.length_append, hlen, total_append]
    rfl
  intro y hy
  have hb := hbase y hy
  show (if im.segBase z < 0 then _ else im.segBase) y = _
  by_cases hmem : y ∈ L.map Prod.fst
  · have hmem' : y ∈ (L ++ [(z, data.length)]).map Prod.fst := by
      rw [List.map_append]
      exact List.mem_append_left _ hmem
    rw [if_pos hmem] at hb
    rw [if_pos hmem', start_append_of_mem _ _ _ hmem]
    split
    · next hneg =>
      have hyz : y ≠ z := by
        rintro rfl
        omega
      rw [Function.update_of_ne hyz, hb]
    · exact hb
  · rw [if_neg hmem] at hb
    by_cases hyz : y = z
    · subst hyz
      have e := start_append_of_notMem L [] y hmem
      rw [List.append_nil] at e
      rw [if_pos (by omega), Function.update_self, if_pos (by simp), start_append_self, hlen, e]
      rfl
    · have hmem' : y ∉ (L ++ [(z, data.length)]).map Prod.fst := by
        rw [List.map_append, List.mem_append, not_or]
        exact ⟨hmem, by simpa using hyz⟩
      rw [if_neg hmem']
      split
      · rw [Function.update_of_ne hyz, hb]
      · exact hb

theorem run_eq_of_ledata {s : Segs} {r : Rec} {wide : Bool} {seg : Index} {off : Nat}
    {data : List UInt8} (hi : r.item = .ledata wide seg off data) :
    run s r = if IsPacked s seg.val ∧ data ≠ [] then [(seg.val, data.length)] else [] := by
  rw [run, hi]

/-- a record that packs something is a LEDATA record with data of a data segment -/
theorem run_ne_nil {s : Segs} {r : Rec} (h : run s r ≠ []) :
    ∃ wide seg off data, r.item = .ledata wide seg off data ∧ IsPacked s seg.val ∧ data ≠ [] := by
  cases hi : r.item with
  | ledata wide seg off data =>
    rw [run_eq_of_ledata hi] at h
    refine ⟨wide, seg, off, data, rfl, ?_⟩
    by_contra hc
    exact h (if_neg hc)
  | _ => exact absurd (by rw [run, hi]) h

/-- Pass 1 packs the runs one behind the other -/
theorem imageAt_runs {recs : List Rec} (hok : ObjOk recs) (pre post : List Rec)
    (h : recs = pre ++ post) :
    Holds (imageAt (objectOf recs) (objectOf pre).length) (runs (pass0 (objectOf recs)) pre) := by
  refine prefix_induction (P := fun pre => Holds (imageAt (objectOf recs) (objectOf pre).length)
    (runs (pass0 (objectOf recs)) pre)) ⟨rfl, ?_⟩ ?_ pre post h
  · intro z hz
    rw [imageAt_zero]
    simp [pass1Init, hz, runs]
  clear h pre post
  rintro pre r post rfl ih
  have hr := hok.mid
  rw [imageAt_snoc hok rfl, runs_snoc]
  by_cases hrun : run (pass0 (objectOf (pre ++ r :: post))) r = []
  · obtain ⟨h1, h2⟩ := pass1Step_idle pre post
      (imageAt (objectOf (pre ++ r :: post)) (objectOf pre).length) hr hrun
    rw [hrun, List.append_nil, Holds, h1, h2]
    exact ih
  · obtain ⟨wide, seg, off, data, hi, hp, hne⟩ := run_ne_nil hrun
    rw [run_eq_of_ledata hi, if_pos ⟨hp, hne⟩, pass1Step_packs pre post _ hr hi hne hp]
    exact ih.pack (pass0_segIsData _ _ hp.2).2 data

/-- where the segments start in the finished image -/
theorem segBase_eq {recs : List Rec} (hok : ObjOk recs) {z : Nat} (hz : z < 64) :
    (parse (objectOf recs)).image.segBase z
      = if z ∈ (runs (pass0 (objectOf recs)) recs).map Prod.fst then
          (start (runs (pass0 (objectOf recs)) recs) z : Int) else -1 := by
  rw [image_eq hok]
  exact (imageAt_runs hok recs [] (List.append_nil _).symm).2 z hz

/-! ## Pass 1b -/

section
variable (pre post : List Rec) {r : Rec} (im : Image) (st : Chunk × Relocs)

/-- Pass 1b counts nothing at a record that packs nothing -/
theorem pass1bStep_idle (hr : r.Ok) (hrun : run (pass0 (objectOf (pre ++ r :: post))) r = []) :
    (pass1bStep (objectOf (pre ++ r :: post)) (pass0 (objectOf (pre ++ r :: post))) im st
      (objectOf pre).length).1.segPacked = st.1.segPacked := by
  show (if isLedata _ _ then chunkStep _ _ _ _ _ else st.1).segPacked = _
  by_cases hled : isLedata (objectOf (pre ++ r :: post)) (objectOf pre).length = true
  · rw [if_pos hled]
    cases hi : r.item with
    | ledata wide seg off data =>
      obtain ⟨h1, h2, _, _⟩ := ledataAt_eq pre post hr hi
      rw [run_eq_of_ledata hi] at hrun
      rw [chunkStep, h1, h2]
      generalize pass0 (objectOf (pre ++ r :: post)) = s at *
      split
      · rfl
      · split
        · next hd =>
          rw [Bool.not_eq_true', decide_eq_false_iff_not] at hd
          dsimp only
          split
          · next hlt =>
            exfalso
            rw [if_pos ⟨⟨hd.1, hd.2.2.2.1⟩, List.length_pos_iff.mp (by omega)⟩] at hrun
            exact List.cons_ne_nil _ _ hrun
          · rfl
        · rfl
    | _ =>
      rw [isLedata_other pre post hr (by simp [hi])] at hled
      exact absurd hled (by decide)
  · rw [if_neg hled]

/-- the chunk behind the data of a data segment -/
theorem pass1bStep_packs (hr : r.Ok) {wide : Bool} {seg : Index} {off : Nat} {data : List UInt8}
    (hi : r.item = .ledata wide seg off data) (hne : data ≠ [])
    (hp : IsPacked (pass0 (objectOf (pre ++ r :: post))) seg.val) (hb : 0 ≤ im.segBase seg.val) :
    (pass1bStep (objectOf (pre ++ r :: post)) (pass0 (objectOf (pre ++ r :: post))) im st
        (objectOf pre).length).1
      = { st.1 with
          isText := false
          dbase := im.segBase seg.val + st.1.segPacked seg.val
          segPacked := Function.update st.1.segPacked seg.val
            (st.1.segPacked seg.val + data.length) } := by
  obtain ⟨h1, h2, _, _⟩ := ledataAt_eq pre post hr hi
  have hz := pass0_segIsData _ _ hp.2
  have hl := List.length_pos_iff.mpr hne
  show (if isLedata _ _ then chunkStep _ _ _ _ _ else st.1) = _
  rw [if_pos (isLedata_ledata pre post hi), chunkStep, h1, h2, decide_eq_false hp.1]
  simp only [Bool.false_eq_true, false_and, if_false, Bool.not_false, true_and, Int.toNat_natCast]
  rw [if_pos ⟨hz.1, by omega, hp.2, hb⟩, if_pos (by omega)]

end

/-- the segment of a record that packs something has its place in the finished image -/
theorem segBase_run {pre post : List Rec} {r : Rec} (hok : ObjOk (pre ++ r :: post)) {wide : Bool}
    {seg : Index} {off : Nat} {data : List UInt8} (hi : r.item = .ledata wide seg off data)
    (hne : data ≠ []) (hp : IsPacked (pass0 (objectOf (pre ++ r :: post))) seg.val) :
    (parse (objectOf (pre ++ r :: post))).image.segBase seg.val
      = start (runs (pass0 (objectOf (pre ++ r :: post))) pre) seg.val := by
  have e : runs (pass0 (objectOf (pre ++ r :: post))) (pre ++ r :: post)
      = runs (pass0 (objectOf (pre ++ r :: post))) pre ++ (seg.val, data.length) ::
        runs (pass0 (objectOf (pre ++ r :: post))) post := by
    have hrun := run_eq_of_ledata (s := pass0 (objectOf (pre ++ r :: post))) hi
    rw [if_pos ⟨hp, hne⟩] at hrun
    generalize pass0 (objectOf (pre ++ r :: post)) = s at *
    rw [runs, List.flatMap_append, List.flatMap_cons, hrun]
    rfl
  rw [segBase_eq hok (pass0_segIsData _ _ hp.2).2, if_pos (by rw [e]; simp), e, start_append_self]

/-- after the records `pre`: how much of each data segment Pass 1b has seen -/
theorem relocsAt_runs {recs : List Rec} (hok : ObjOk recs) (pre post : List Rec)
    (h : recs = pre ++ post) (z : Nat) :
    (relocsAt (objectOf recs) (objectOf pre).length).1.segPacked z
      = sizeOf (runs (pass0 (objectOf recs)) pre) z := by
  refine prefix_induction (P := fun pre => ∀ z,
    (relocsAt (objectOf recs) (objectOf pre).length).1.segPacked z
      = sizeOf (runs (pass0 (objectOf recs)) pre) z) (fun z => rfl) ?_ pre post h z
  clear h pre post z
  rintro pre r post rfl ih z
  have hr := hok.mid
  rw [relocsAt_snoc hok rfl, runs_snoc, sizeOf_append]
  by_cases hrun : run (pass0 (objectOf (pre ++ r :: post))) r = []
  · rw [pass1bStep_idle pre post _ _ hr hrun, hrun, ih]
    rfl
  · obtain ⟨wide, seg, off, data, hi, hp, hne⟩ := run_ne_nil hrun
    have hb : 0 ≤ (parse (objectOf (pre ++ r :: post))).image.segBase seg.val := by
      rw [segBase_run hok hi hne hp]
      exact Int.natCast_nonneg _
    rw [run_eq_of_ledata hi, if_pos ⟨hp, hne⟩, pass1bStep_packs pre post _ _ hr hi hne hp hb,
      sizeOf_singleton]
    by_cases hz : seg.val = z
    · subst hz
      rw [if_pos rfl, ← ih]
      exact Function.update_self ..
    · rw [if_neg hz, Nat.add_zero, ← ih]
      exact Function.update_of_ne (Ne.symm hz) ..

/-! ## where the bytes lie -/

/-- the bytes of a LEDATA record lie where its segment and its enumerated offset say exactly when
it is a data segment and the record continues it -/
theorem placed_iff (recs pre post : List Rec) (r : Rec) (wide : Bool) (seg : Index) (off : Nat)
    (data : List UInt8) (hok : ObjOk recs) (h : recs = pre ++ r :: post)
    (hi : r.item = .ledata wide seg off data) (hne : data ≠ []) :
    Placed (objectOf recs) (objectOf pre).length seg.val off data ↔
      InSequence (pass0 (objectOf recs)) pre seg.val off := by
  subst h
  have hr := hok.mid
  have hnext := Rec.recNext_at pre post hr
  have himage := imageAt_snoc hok (rfl : pre ++ r :: post = _)
  have hrelocs := relocsAt_snoc hok (rfl : pre ++ r :: post = _)
  by_cases hp : IsPacked (pass0 (objectOf (pre ++ r :: post))) seg.val
  · have hbase := segBase_run hok hi hne hp
    have hb : 0 ≤ (parse (objectOf (pre ++ r :: post))).image.segBase seg.val := by
      rw [hbase]
      exact Int.natCast_nonneg _
    have hlen := (imageAt_runs hok pre (r :: post) rfl).1
    have hpacked := relocsAt_runs hok pre (r :: post) rfl seg.val
    have hblock := inOneBlock_iff _ (runs_pos (pass0 (objectOf (pre ++ r :: post))) pre) seg.val
    have hchunk := pass1bStep_packs pre post (parse (objectOf (pre ++ r :: post))).image
      (relocsAt (objectOf (pre ++ r :: post)) (objectOf pre).length) hr hi hne hp hb
    rw [← hrelocs, ← hnext] at hchunk
    constructor
    · rintro ⟨_, hpos, _, hc⟩
      rw [hchunk, hpacked, hbase] at hc
      rw [hlen, hbase] at hpos
      have hoff : sizeOf (runs (pass0 (objectOf (pre ++ r :: post))) pre) seg.val = off := by
        have hc' : ((start (runs (pass0 (objectOf (pre ++ r :: post))) pre) seg.val : Int)
          + sizeOf (runs (pass0 (objectOf (pre ++ r :: post))) pre) seg.val = _) := hc
        omega
      exact ⟨hp, hoff, hblock.mp (by omega)⟩
    · rintro ⟨_, hoff, hone⟩
      have htotal := hblock.mpr hone
      refine ⟨?_, ?_, ?_, ?_⟩
      · rw [hnext, himage, pass1Step_packs pre post _ hr hi hne hp]
      · rw [hlen, hbase]
        omega
      · rw [hchunk]
      · rw [hchunk]
        show _ + ((relocsAt _ _).1.segPacked seg.val : Int) = _
        rw [hpacked, hoff]
  · constructor
    · intro hpl
      have hrun : run (pass0 (objectOf (pre ++ r :: post))) r = [] := by
        rw [run_eq_of_ledata hi, if_neg fun h => hp h.1]
      have hdata := hpl.bytes
      rw [hnext, himage, (pass1Step_idle pre post _ hr hrun).1] at hdata
      exact absurd (List.append_right_eq_self.mp hdata.symm) hne
    · intro hs
      exact absurd hs.1 hp

/-- the data image only grows -/
theorem imageAt_prefix {recs : List Rec} (hok : ObjOk recs) (q post : List Rec)
    (h : recs = q ++ post) (pre : List Rec) (hpre : pre <+: q) :
    (imageAt (objectOf recs) (objectOf pre).length).data <+:
      (imageAt (objectOf recs) (objectOf q).length).data := by
  refine prefix_induction (P := fun q => ∀ pre, pre <+: q →
    (imageAt (objectOf recs) (objectOf pre).length).data <+:
      (imageAt (objectOf recs) (objectOf q).length).data) ?_ ?_ q post h pre hpre
  · intro pre hpre
    rw [List.prefix_nil.mp hpre]
  clear h hpre q post pre
  rintro q r post rfl ih pre hpre
  have hr := hok.mid
  rcases List.prefix_concat_iff.mp hpre with rfl | hpre
  · exact List.prefix_rfl
  refine (ih pre hpre).trans ?_
  rw [imageAt_snoc hok rfl]
  by_cases hrun : run (pass0 (objectOf (q ++ r :: post))) r = []
  · rw [(pass1Step_idle q post _ hr hrun).1]
  · obtain ⟨wide, seg, off, data, hi, hp, hne⟩ := run_ne_nil hrun
    rw [pass1Step_packs q post _ hr hi hne hp]
    exact List.prefix_append _ _

/-- in the finished image the bytes of a placed record stand at `seg_base + off` -/
theorem Placed.slice {recs pre post : List Rec} {r : Rec} (hok : ObjOk recs)
    (h : recs = pre ++ r :: post) {z off : Nat} {data : List UInt8}
    (hpl : Placed (objectOf recs) (objectOf pre).length z off data) :
    slice (parse (objectOf recs)).image.data
      ((parse (objectOf recs)).image.segBase z + off).toNat data.length = data := by
  have hbytes := hpl.bytes
  have hnext : recNext (objectOf recs) (objectOf pre).length = (objectOf (pre ++ [r])).length := by
    subst h
    exact Rec.recNext_at pre post hok.mid
  obtain ⟨rest, hrest⟩ := imageAt_prefix hok recs [] (List.append_nil _).symm (pre ++ [r])
    ⟨post, by rw [h]; simp⟩
  rw [← hnext, hbytes, List.append_assoc] at hrest
  rw [← hpl.pos, Int.toNat_natCast, image_eq hok, ← hrest]
  exact slice_append _ _ _

/-! ## two objects -/

/-- a code segment 1 and two data segments 2 and 3, then data -/
def dataObject (data : List Rec) : List Rec :=
  [⟨.other 0x96 [4, 0x43, 0x4F, 0x44, 0x45, 4, 0x44, 0x41, 0x54, 0x41], 0⟩,
    ⟨.other 0x99 [0xA9, 0, 0, 0, 0, 1, 1, 1], 0⟩, ⟨.other 0x99 [0xA9, 4, 0, 0, 0, 1, 2, 1], 0⟩,
    ⟨.other 0x99 [0xA9, 4, 0, 0, 0, 1, 2, 1], 0⟩] ++ data

def dataRec (z : Nat) (hz : z < 0x80) (off : Nat) (data : List UInt8) : Rec :=
  ⟨.ledata true ⟨false, z, hz⟩ off data, 0⟩

/-- a second record that continues its segment -/
theorem placed_next :
    Placed (objectOf (dataObject [dataRec 2 (by decide) 0 [1], dataRec 2 (by decide) 1 [2, 3]]))
      (objectOf (dataObject [dataRec 2 (by decide) 0 [1]])).length 2 1 [2, 3] :=
  (placed_iff _ (dataObject [dataRec 2 (by decide) 0 [1]]) [] (dataRec 2 (by decide) 1 [2, 3])
    true ⟨false, 2, by decide⟩ 1 [2, 3] (by decide) rfl rfl (by decide)).mpr (by decide)

/-- segment 3 comes between two records of segment 2 -/
def interleaved : List Rec :=
  dataObject [dataRec 2 (by decide) 0 [1], dataRec 3 (by decide) 0 [2], dataRec 2 (by decide) 1 [3]]

/-- the byte at offset 1 of segment 2 is not where `seg_base + 1` says: there stands the byte of
segment 3 -/
theorem placed_interleaved :
    ObjOk interleaved ∧
    ¬ Placed (objectOf interleaved) (objectOf (interleaved.take 6)).length 2 1 [3] ∧
    (finish (objectOf interleaved)).segBase 2 = 0 ∧
    (finish (objectOf interleaved)).data = [1, 2, 3] :=
  ⟨by decide, fun h => absurd h.pos (by decide), by decide, by decide⟩

end X64Obj
