import OpenWatcom.Lib.Pieces
import OpenWatcom.X64Obj.OmfFormat

/-!
# Walking over a well-formed object

* `recPositions_objectOf`   the passes look at the start of every record;
* `Rec.type_at`, `Rec.recNext_at`, `Rec.recEnd_at`, `Rec.body_at`   what they read there;
* `imageAt`, `relocsAt`   the state of Pass 1 and of Pass 1b when it comes to a position;
* `imageAt_snoc`, `relocsAt_snoc`   one record further;
* `ledataAt_eq`   the reading of a LEDATA record.
-/

namespace X64Obj
open Bytes Stride

theorem recNext_forward (omf : List UInt8) : Forward (recNext omf) := fun k => by
  rw [recNext]
  omega

@[simp] theorem Rec.bytes_length (r : Rec) : r.bytes.length = r.item.body.length + 4 := by
  simp only [Rec.bytes, List.length_cons, List.length_append, leBytes_length, List.length_nil]
  omega

theorem objectOf_append (a b : List Rec) : objectOf (a ++ b) = objectOf a ++ objectOf b := by
  rw [objectOf, List.map_append, List.flatten_append, objectOf, objectOf]

theorem objectOf_cons (r : Rec) (b : List Rec) : objectOf (r :: b) = r.bytes ++ objectOf b := rfl

/-- the object around the record `r` -/
theorem objectOf_split (pre post : List Rec) (r : Rec) :
    objectOf (pre ++ r :: post) = objectOf pre ++ (r.bytes ++ objectOf post) := by
  rw [objectOf_append, objectOf_cons]

theorem objectOf_snoc_length (pre : List Rec) (r : Rec) :
    (objectOf (pre ++ [r])).length = (objectOf pre).length + (r.item.body.length + 4) := by
  rw [objectOf_split, List.length_append, List.length_append, Rec.bytes_length]
  rfl

/-! ## one record -/

section
variable (pre post : List Rec) (r : Rec)

theorem Rec.type_at :
    byteAt (objectOf (pre ++ r :: post)) (objectOf pre).length = r.item.type := by
  have h := byteAt_mid (objectOf pre) (r.bytes ++ objectOf post) 0
  rw [Nat.add_zero] at h
  rw [objectOf_split, h]
  rfl

/-- the body behind the type and the length -/
theorem Rec.body_at : ∃ a b, objectOf (pre ++ r :: post) = a ++ (r.item.body ++ b) ∧
    a.length = (objectOf pre).length + 3 := by
  refine ⟨objectOf pre ++ r.item.type :: leBytes 2 (r.item.body.length + 1),
    [r.checksum] ++ objectOf post, ?_, ?_⟩
  · rw [objectOf_split, Rec.bytes]
    simp
  · rw [List.length_append, List.length_cons, leBytes_length]

variable {r} (hr : r.Ok)
include hr

theorem Rec.recLen_at :
    recLen (objectOf (pre ++ r :: post)) (objectOf pre).length = r.item.body.length + 1 := by
  have e : objectOf (pre ++ r :: post) = (objectOf pre ++ [r.item.type]) ++
      (leBytes 2 (r.item.body.length + 1) ++ (r.item.body ++ [r.checksum] ++ objectOf post)) := by
    rw [objectOf_split, Rec.bytes]
    simp
  have h := slice_append (objectOf pre ++ [r.item.type]) (leBytes 2 (r.item.body.length + 1))
    (r.item.body ++ [r.checksum] ++ objectOf post)
  rw [leBytes_length, List.length_append, List.length_singleton] at h
  rw [recLen, e, h, leNat_leBytes, Nat.mod_eq_of_lt hr.1]

theorem Rec.recNext_at :
    recNext (objectOf (pre ++ r :: post)) (objectOf pre).length
      = (objectOf (pre ++ [r])).length := by
  rw [recNext, Rec.recLen_at pre post hr, objectOf_snoc_length]
  omega

theorem Rec.recEnd_at :
    recEnd (objectOf (pre ++ r :: post)) (objectOf pre).length
      = (objectOf pre).length + 3 + r.item.body.length := by
  rw [recEnd, Rec.recLen_at pre post hr]
  omega

end

/-! ## the walk -/

/-- every record fits -/
def ObjOk (recs : List Rec) : Prop := ∀ r ∈ recs, r.Ok

instance (recs : List Rec) : Decidable (ObjOk recs) := inferInstanceAs (Decidable (∀ _ ∈ _, _))

theorem ObjOk.mid {pre post : List Rec} {r : Rec} (h : ObjOk (pre ++ r :: post)) : r.Ok :=
  h r (by simp)

/-- what holds before the first record and is carried over every record holds everywhere -/
theorem prefix_induction {P : List Rec → Prop} {recs : List Rec} (h0 : P [])
    (hs : ∀ pre r post, recs = pre ++ r :: post → P pre → P (pre ++ [r])) (pre post : List Rec)
    (h : recs = pre ++ post) : P pre := by
  induction pre using List.reverseRecOn generalizing post with
  | nil => exact h0
  | append_singleton pre r ih =>
    rw [List.append_assoc, List.singleton_append] at h
    exact hs pre r post h (ih (r :: post) h)

theorem visits_prefix {recs : List Rec} (hok : ObjOk recs) (pre post : List Rec)
    (h : recs = pre ++ post) : Visits (recNext (objectOf recs)) (objectOf pre).length := by
  refine prefix_induction (P := fun pre => Visits _ (objectOf pre).length) Visits.zero ?_ pre post h
  rintro pre r post rfl hv
  rw [← Rec.recNext_at pre post hok.mid]
  exact hv.step (recNext_forward _)

/-- the passes look at every record -/
theorem recPositions_objectOf {recs : List Rec} (hok : ObjOk recs) :
    recPositions (objectOf recs) = stops (recNext (objectOf recs)) (objectOf recs).length 0 := by
  have hnext : ∀ b, (objectOf recs).length ≤ b + 2 →
      ∀ k x, Pieces.StartsAt (recs.map Rec.bytes) k x →
        recNext (objectOf recs) (0 + k) = 0 + k + x.length ∧ 0 + k < b := by
    rintro b hb k x ⟨pre', post', h, rfl⟩
    obtain ⟨pre, post2, rfl, rfl, h2⟩ := List.map_eq_append_iff.mp h
    obtain ⟨r, post, rfl, rfl, rfl⟩ := List.map_eq_cons_iff.mp h2
    have e := Rec.recNext_at pre post hok.mid
    rw [objectOf_snoc_length] at e
    rw [objectOf_split, List.length_append, List.length_append, Rec.bytes_length] at hb
    rw [Nat.zero_add, ← objectOf, e, Rec.bytes_length]
    exact ⟨rfl, by omega⟩
  rw [recPositions,
    Pieces.stops_pieces (recNext_forward _) (recs.map Rec.bytes) 0 _ (hnext _ (by omega))
      (by rw [← objectOf]; omega),
    Pieces.stops_pieces (recNext_forward _) (recs.map Rec.bytes) 0 _ (hnext _ (by omega))
      (by rw [← objectOf]; omega)]

section
variable (omf : List UInt8)

/-- the state of Pass 1 when it comes to `k` -/
def imageAt (k : Nat) : Image :=
  (stops (recNext omf) k 0).foldl (pass1Step omf (pass0 omf)) pass1Init

/-- the state of Pass 1b when it comes to `k` -/
def relocsAt (k : Nat) : Chunk × Relocs :=
  (stops (recNext omf) k 0).foldl (pass1bStep omf (pass0 omf) (parse omf).image) pass1bInit

end

section
variable {recs : List Rec} (hok : ObjOk recs)
include hok

theorem image_eq : (parse (objectOf recs)).image = imageAt (objectOf recs) (objectOf recs).length := by
  rw [imageAt, ← recPositions_objectOf hok]
  rfl

theorem relocs_eq :
    (parse (objectOf recs)).relocs = (relocsAt (objectOf recs) (objectOf recs).length).2 := by
  rw [relocsAt, ← recPositions_objectOf hok]
  rfl

theorem stops_prefix_snoc {pre post : List Rec} {r : Rec} (h : recs = pre ++ r :: post) :
    stops (recNext (objectOf recs)) (objectOf (pre ++ [r])).length 0
      = stops (recNext (objectOf recs)) (objectOf pre).length 0 ++ [(objectOf pre).length] := by
  have hv := visits_prefix hok pre (r :: post) h
  rw [← stops_snoc (recNext_forward _) hv]
  subst h
  rw [Rec.recNext_at pre post hok.mid]

theorem imageAt_snoc {pre post : List Rec} {r : Rec} (h : recs = pre ++ r :: post) :
    imageAt (objectOf recs) (objectOf (pre ++ [r])).length
      = pass1Step (objectOf recs) (pass0 (objectOf recs))
          (imageAt (objectOf recs) (objectOf pre).length) (objectOf pre).length := by
  rw [imageAt, stops_prefix_snoc hok h, List.foldl_append]
  rfl

theorem relocsAt_snoc {pre post : List Rec} {r : Rec} (h : recs = pre ++ r :: post) :
    relocsAt (objectOf recs) (objectOf (pre ++ [r])).length
      = pass1bStep (objectOf recs) (pass0 (objectOf recs)) (parse (objectOf recs)).image
          (relocsAt (objectOf recs) (objectOf pre).length) (objectOf pre).length := by
  rw [relocsAt, stops_prefix_snoc hok h, List.foldl_append]
  rfl

end

theorem imageAt_zero (omf : List UInt8) : imageAt omf (objectOf []).length = pass1Init := rfl

theorem relocsAt_zero (omf : List UInt8) : relocsAt omf (objectOf []).length = pass1bInit := rfl

/-! ## record types -/

section
variable (pre post : List Rec) {r : Rec}

theorem isLedata_ledata {wide : Bool} {seg : Index} {off : Nat} {data : List UInt8}
    (hi : r.item = .ledata wide seg off data) :
    isLedata (objectOf (pre ++ r :: post)) (objectOf pre).length = true := by
  rw [isLedata, Rec.type_at, hi]
  cases wide <;> rfl

/-- a record that is no LEDATA is not taken for one -/
theorem isLedata_other (hr : r.Ok) (hi : ∀ wide seg off data, r.item ≠ .ledata wide seg off data) :
    isLedata (objectOf (pre ++ r :: post)) (objectOf pre).length = false := by
  rw [isLedata, Rec.type_at]
  have hok := hr.2
  cases h : r.item with
  | ledata wide seg off data => exact absurd h (hi _ _ _ _)
  | extdef isLocal _ => cases isLocal <;> rfl
  | comdef rt _ _ =>
    rw [h] at hok
    rcases hok with rfl | rfl | rfl <;> rfl
  | fixupp wide _ => cases wide <;> rfl
  | other rt _ =>
    rw [h] at hok
    simp only [Item.Ok, isListed, Bool.or_eq_false_iff] at hok
    show (decide (rt = 0xA1) || decide (rt = 0xA0)) = false
    rw [hok.1.1.1.1.1.1.1.1, hok.1.1.1.1.1.1.1.2]
    rfl

/-- the reading of a LEDATA record: its segment and its data -/
theorem ledataAt_eq (hr : r.Ok) {wide : Bool} {seg : Index} {off : Nat} {data : List UInt8}
    (hi : r.item = .ledata wide seg off data) :
    let l := ledataAt (objectOf (pre ++ r :: post)) (objectOf pre).length
    l.segIdx = seg.val ∧ l.len = data.length ∧
      l.start + data.length ≤ (objectOf (pre ++ r :: post)).length ∧
      slice (objectOf (pre ++ r :: post)) l.start data.length = data := by
  obtain ⟨a, b, e, ha⟩ := Rec.body_at pre post r
  have htype := Rec.type_at pre post r
  have hlen := Rec.recLen_at pre post hr
  rw [hi] at e htype hlen
  generalize objectOf (pre ++ r :: post) = omf at *
  rw [Item.body, List.append_assoc, List.append_assoc] at e
  have hidx : indexAt omf a.length = (seg.val, seg.bytes.length) := by
    rw [e]
    exact seg.read a _
  -- the data behind the index and the enumerated offset
  have hdata := slice_append (a ++ (seg.bytes ++ leBytes (if wide then 4 else 2) off)) data b
  rw [show (a ++ (seg.bytes ++ leBytes (if wide then 4 else 2) off)) ++ (data ++ b) = omf by
    rw [e]; simp] at hdata
  have htotal : omf.length = a.length + (seg.bytes.length + ((if wide then 4 else 2) +
      (data.length + b.length))) := by
    rw [e]
    simp only [List.length_append, leBytes_length]
  have hstart : (ledataAt omf (objectOf pre).length).start
      = (a ++ (seg.bytes ++ leBytes (if wide then 4 else 2) off)).length := by
    rw [List.length_append, List.length_append, leBytes_length]
    show (if byteAt omf (objectOf pre).length = 0xA1 then _ else _) + _ = _
    rw [htype, ← ha, hidx, Item.type, Index.bytes_length]
    cases wide <;> cases seg.two <;> simp
  have hbody : recLen omf (objectOf pre).length
      = seg.bytes.length + (if wide then 4 else 2) + data.length + 1 := by
    rw [hlen, Item.body, List.length_append, List.length_append, leBytes_length]
    omega
  have hl : (ledataAt omf (objectOf pre).length).len = (recLen omf (objectOf pre).length : Int)
      - ((ledataAt omf (objectOf pre).length).start - ((objectOf pre).length + 3) : Nat) - 1 := rfl
  refine ⟨?_, ?_, ?_, ?_⟩
  · show (indexAt omf ((objectOf pre).length + 3)).1 = _
    rw [← ha, hidx]
  · rw [hl, hstart, hbody, List.length_append, List.length_append, leBytes_length]
    omega
  · rw [hstart, htotal, List.length_append, List.length_append, leBytes_length]
    omega
  · rw [hstart]
    exact hdata

end

end X64Obj
