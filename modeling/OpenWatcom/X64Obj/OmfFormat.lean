import OpenWatcom.X64Obj.Omf

/-!
# Well-formed OMF objects

The records of an object as the format defines them, and their bytes.

* `Index`          an index in one byte or in two;
* `Subrec`         a THREAD or FIXUP subrecord;
* `Item`, `Rec`    a record; `Rec.Ok` says that it fits its fields;
* `objectOf`       the bytes of an object;
* `Index.read`     the code's reading of an index is the inverse of `Index.bytes`.
-/

namespace X64Obj
open Bytes

/-! ## the format -/

/-- an index, in one byte or in two -/
structure Index where
  two : Bool
  val : Nat
  lt : val < if two then 0x8000 else 0x80

def Index.bytes (x : Index) : List UInt8 :=
  if x.two then [UInt8.ofNat (0x80 + x.val / 256), UInt8.ofNat x.val] else [UInt8.ofNat x.val]

/-- the frame of a FIXUP -/
inductive Frame
  | thread (num : Fin 4)
  | datum (method : Fin 3) (x : Index)
  | location
  | target

/-- the target of a FIXUP -/
inductive Target
  | thread (num : Fin 4)
  | segment (x : Index)
  | group (x : Index)
  | external (x : Index)

/-- a subrecord of a FIXUPP record; `disp` is there when the P bit is clear -/
inductive Subrec
  | thread (frame : Bool) (method : Fin 3) (num : Fin 4) (x : Index)
  | bareThread (toTarget : Bool) (num : Fin 4)
  | fixup (mode : Bool) (loc : Fin 16) (off : Fin 1024) (frame : Frame) (target : Target)
      (disp : Option Nat)

/-- the four high bits of the fix data byte -/
def Frame.nibble : Frame → Nat
  | .thread num => 8 + num
  | .datum method _ => method
  | .location => 4
  | .target => 5

def Frame.bytes : Frame → List UInt8
  | .datum _ x => x.bytes
  | _ => []

/-- the T bit and the low two bits of the fix data byte -/
def Target.bits : Target → Nat
  | .thread num => 8 + num
  | .segment _ => 0
  | .group _ => 1
  | .external _ => 2

def Target.bytes : Target → List UInt8
  | .thread _ => []
  | .segment x => x.bytes
  | .group x => x.bytes
  | .external x => x.bytes

def dispBytes (wide : Bool) : Option Nat → List UInt8
  | none => []
  | some d => leBytes (if wide then 4 else 2) d

def Subrec.bytes (wide : Bool) : Subrec → List UInt8
  | .thread frame method num x =>
    UInt8.ofNat ((if frame then 0x40 else 0) + 4 * method + num) :: x.bytes
  | .bareThread toTarget num => [UInt8.ofNat (0x40 + 4 * (if toTarget then 5 else 4) + num)]
  | .fixup mode loc off frame target disp =>
    UInt8.ofNat (0x80 + (if mode then 0x40 else 0) + 4 * loc + off / 256) :: UInt8.ofNat off ::
      UInt8.ofNat (16 * frame.nibble + target.bits + if disp.isSome then 0 else 4) ::
      (frame.bytes ++ (target.bytes ++ dispBytes wide disp))

/-- a record without its length and its checksum -/
inductive Item
  | ledata (wide : Bool) (seg : Index) (off : Nat) (data : List UInt8)
  | extdef (isLocal : Bool) (names : List (List UInt8 × Index))
  /-- COMDEF, LCOMDEF, CEXTDEF: further externals, in a form the passes do not read -/
  | comdef (rt : UInt8) (body : List UInt8) (names : List (List UInt8))
  | fixupp (wide : Bool) (subs : List Subrec)
  | other (rt : UInt8) (body : List UInt8)

structure Rec where
  item : Item
  checksum : UInt8

def Item.type : Item → UInt8
  | .ledata wide .. => if wide then 0xA1 else 0xA0
  | .extdef isLocal _ => if isLocal then 0xB4 else 0x8C
  | .comdef rt .. => rt
  | .fixupp wide _ => if wide then 0x9D else 0x9C
  | .other rt _ => rt

/-- an entry of an EXTDEF record -/
def extdefEntry (e : List UInt8 × Index) : List UInt8 := UInt8.ofNat e.1.length :: (e.1 ++ e.2.bytes)

def Item.body : Item → List UInt8
  | .ledata wide seg off data => seg.bytes ++ (leBytes (if wide then 4 else 2) off ++ data)
  | .extdef _ names => names.flatMap extdefEntry
  | .comdef _ body _ => body
  | .fixupp wide subs => subs.flatMap (Subrec.bytes wide)
  | .other _ body => body

def Rec.bytes (r : Rec) : List UInt8 :=
  r.item.type :: (leBytes 2 (r.item.body.length + 1) ++ (r.item.body ++ [r.checksum]))

/-- the record types with an item of their own -/
def isListed (rt : UInt8) : Bool :=
  rt = 0xA0 || rt = 0xA1 || rt = 0x8C || rt = 0xB4 || rt = 0x9C || rt = 0x9D || rt = 0xB0 ||
    rt = 0xB8 || rt = 0xBC

/-- the fields of an item fit -/
def Item.Ok : Item → Prop
  | .ledata wide _ off _ => off < 256 ^ (if wide then 4 else 2)
  | .extdef _ names => ∀ e ∈ names, e.1.length < 256
  | .comdef rt .. => rt = 0xB0 ∨ rt = 0xB8 ∨ rt = 0xBC
  | .fixupp .. => True
  | .other rt _ => isListed rt = false

def Rec.Ok (r : Rec) : Prop := r.item.body.length + 1 < 256 ^ 2 ∧ r.item.Ok

instance (i : Item) : Decidable i.Ok := by
  cases i <;> unfold Item.Ok <;> infer_instance

instance (r : Rec) : Decidable r.Ok := inferInstanceAs (Decidable (_ ∧ _))

def objectOf (recs : List Rec) : List UInt8 := (recs.map Rec.bytes).flatten

/-! ## indices -/

theorem and_80 (b : UInt8) : b &&& 0x80 ≠ 0 ↔ 0x80 ≤ b.toNat := by
  have h : ∀ n < 256, n &&& 0x80 ≠ 0 ↔ 0x80 ≤ n := by decide +kernel
  rw [ne_eq, ← UInt8.toNat_inj, UInt8.toNat_and]
  exact h _ b.toNat_lt

theorem and_7F (b : UInt8) : (b &&& 0x7F).toNat = b.toNat % 128 := by
  rw [UInt8.toNat_and]
  exact Nat.and_two_pow_sub_one_eq_mod _ 7

theorem Index.lt_two {x : Index} (h : x.two = true) : x.val < 0x8000 := by
  have := x.lt
  rwa [if_pos h] at this

theorem Index.lt_one {x : Index} (h : x.two = false) : x.val < 0x80 := by
  have := x.lt
  rwa [if_neg (by rw [h]; decide)] at this

@[simp] theorem Index.bytes_length (x : Index) : x.bytes.length = if x.two then 2 else 1 := by
  rw [Index.bytes]
  split <;> rfl

theorem byteAt_mid (a b : List UInt8) (i : Nat) : byteAt (a ++ b) (a.length + i) = byteAt b i :=
  byteAt_append_right a b i

/-- the first byte of an index tells its size -/
theorem Index.first (x : Index) (b : List UInt8) :
    byteAt (x.bytes ++ b) 0 &&& 0x80 ≠ 0 ↔ x.two = true := by
  rw [and_80, Index.bytes]
  cases h : x.two with
  | true =>
    have hx := lt_two h
    show 0x80 ≤ (UInt8.ofNat (0x80 + x.val / 256)).toNat ↔ true = true
    rw [UInt8.toNat_ofNat_of_lt' (by show _ < 256; omega)]
    exact ⟨fun _ => rfl, fun _ => Nat.le_add_right _ _⟩
  | false =>
    have hx := lt_one h
    show 0x80 ≤ (UInt8.ofNat x.val).toNat ↔ false = true
    rw [UInt8.toNat_ofNat_of_lt' (by show _ < 256; omega)]
    exact ⟨fun _ => absurd hx (by omega), fun e => absurd e (by decide)⟩

/-- the index at the end of `a` -/
theorem Index.read (x : Index) (a b : List UInt8) :
    indexAt (a ++ (x.bytes ++ b)) a.length = (x.val, x.bytes.length) := by
  have h0 := byteAt_mid a (x.bytes ++ b) 0
  have h1 := byteAt_mid a (x.bytes ++ b) 1
  have hf := x.first b
  rw [Nat.add_zero] at h0
  rw [indexAt, h0, h1, bytes_length]
  cases h : x.two with
  | true =>
    have hx := lt_two h
    rw [if_pos (hf.mpr h), and_7F, Index.bytes, if_pos h, if_pos rfl]
    show ((UInt8.ofNat (0x80 + x.val / 256)).toNat % 128 * 256 + (UInt8.ofNat x.val).toNat, 2) = _
    rw [UInt8.toNat_ofNat_of_lt' (by show _ < 256; omega), UInt8.toNat_ofNat',
      Prod.mk.injEq]
    exact ⟨by omega, rfl⟩
  | false =>
    have hx := lt_one h
    rw [if_neg (fun e => by rw [hf.mp e] at h; exact absurd h (by decide)), Index.bytes,
      if_neg (by rw [h]; decide), if_neg (by decide)]
    show ((UInt8.ofNat x.val).toNat, 1) = _
    rw [UInt8.toNat_ofNat_of_lt' (by show _ < 256; omega)]

end X64Obj
