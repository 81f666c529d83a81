import OpenWatcom.Lib.Transfers
import OpenWatcom.Wl.FarCalls

/-!
# What optimised far calls do

* `Trace`, `step`, `Reachable`   fixups one after another, with the place of the last NOP as history;
* `Optimised`           the new instruction against the far one: where control goes, what is pushed, and which
                        bytes have changed;
* `Sound`               what must hold before a step;
* `Remembered`          what `FarCallOpt` remembers is the last NOP it wrote, in all reachable states;
* `relocate_optimised`  in a reachable state, a step that is `Sound` keeps the meaning of the instruction.
-/

namespace Wl
open Bytes Transfers

/-! ## histories -/

/-- the segments, the globals, and the segment and position of the last NOP behind an optimised call -/
structure Trace where
  segs : Nat → Segdata
  last : Globals
  nop : Option (Nat × Nat)

def start (segs : Nat → Segdata) : Trace := ⟨segs, resetObj2Supp, none⟩

/-- the rewritten instruction is a call with a NOP behind it -/
def LeavesNop (seg : Segdata) (f : Fixup) : Prop :=
  byteAt seg.bytes (f.off - 1) = farCallId ∧ Has (seg.locAddr f).off 1

instance (seg : Segdata) (f : Fixup) : Decidable (LeavesNop seg f) := inferInstanceAs (Decidable (_ ∧ _))

/-- the fixup `f` of the segment `d` -/
def step (cf : Config) (tr : Trace) (d : Nat) (f : Fixup) : Option Trace :=
  (relocate cf tr.last (tr.segs d) f).map fun (last, seg, rewrote) =>
    { segs := Function.update tr.segs d seg
      last := last
      nop :=
        match pointerSize f.type with
        | some n => if rewrote ∧ LeavesNop (tr.segs d) f then some (d, f.off + n + 1) else tr.nop
        | none => tr.nop }

inductive Reachable (cf : Config) (segs : Nat → Segdata) : Trace → Prop
  | start : Reachable cf segs (start segs)
  | step {tr tr' : Trace} {d : Nat} {f : Fixup} (h : Reachable cf segs tr)
      (hs : step cf tr d f = some tr') : Reachable cf segs tr'

/-! ## the meaning of an instruction -/

section
variable (cf : Config) (seg : Segdata) (f : Fixup)

/-- the bytes of an operand in the code of a segment -/
def Segdata.operand : Nat := if seg.is32bit then 4 else 2

/-- by how much the offsets of code differ from those of the linker when it runs: flat formats execute at
linear addresses -/
def codeBias : Off :=
  if Has cf.type (mkLinearize ||| mkQnxFlat) then
    match findGroup cf.toLink seg.addr.seg with
    | none => 0
    | some group =>
      group.linear - group.grpAddr.off + if Has cf.type mkLinearize then cf.base else 0
  else 0

/-- where the instruction before the field runs -/
def instrIp : Nat := ((seg.locAddr f).off - 1 + codeBias cf seg).toNat % 256 ^ seg.operand

/-- the field when `PatchData` is through with it -/
def patchedField : List UInt8 := patchData cf seg.isdbi (seg.fix f) (seg.fix f).data

/-- the offset of the far pointer in the running program; some formats leave the target to a relocation -/
def farOffset : Nat :=
  (leNat ((patchedField cf seg f).take seg.operand) +
    if Has cf.type mkPointers ∧ ¬seg.isdbi then f.tgtAddr.off.toNat else 0) % 256 ^ seg.operand

/-- its segment, as the linker counts segments; in protected mode a selector of the target is filled in -/
def farSegment : Nat :=
  if Has cf.type mkDos then leNat (((patchedField cf seg f).drop seg.operand).take 2)
  else f.tgtAddr.seg.toNat

/-- the far instruction as it would run without the optimisation -/
def farBytes : List UInt8 :=
  byteAt seg.bytes (f.off - 1)
    :: (leBytes seg.operand (farOffset cf seg f) ++ leBytes 2 (farSegment cf seg f))

/-- the new transfer goes to the same place; a call pushes the same code segment and returns into the
instruction, behind its start, or to its end -/
def Same (seg : Segdata) (ip : Nat) (far near : Transfer) : Prop :=
  near.cs = far.cs ∧ near.ip = far.ip ∧
    (far.pushed = [] ∧ near.pushed = [] ∨
      ∃ ret, far.pushed = [(ip + seg.operand + 3) % 256 ^ seg.operand, seg.addr.seg.toNat] ∧
        near.pushed = [(ip + ret) % 256 ^ seg.operand, seg.addr.seg.toNat] ∧
        0 < ret ∧ ret ≤ seg.operand + 3)

/-- `seg'` is the segment behind the step, `nop` the last NOP before it -/
structure Optimised (nop : Option (Nat × Nat)) (d : Nat) (seg' : Segdata) : Prop where
  transfers : ∃ far near,
    transfer seg.operand seg.addr.seg.toNat (instrIp cf seg f) [] (farBytes cf seg f) = some far ∧
    transfer seg.operand seg.addr.seg.toNat (instrIp cf seg f) []
      (slice seg'.bytes (f.off - 1) (seg.operand + 3)) = some near ∧
    Same seg (instrIp cf seg f) far near
  length : seg'.bytes.length = seg.bytes.length
  frame : ∀ i, i + 1 < f.off ∨ f.off + seg.operand + 2 ≤ i →
    byteAt seg'.bytes i = byteAt seg.bytes i ∨
      i + 2 = f.off ∧ nop = some (d, i) ∧ byteAt seg.bytes i = nopId

/-- the pointer has the size of the operands of the code, the code runs at the offsets that the linker counts,
the pointer leads into the segment of the code, and a call that is remembered as the one before is in this
segment and has its NOP -/
structure Sound (last : Globals) (nop : Option (Nat × Nat)) (d : Nat) : Prop where
  size : ∀ n, pointerSize f.type = some n → n = seg.operand
  place : (codeBias cf seg).toNat % 256 ^ seg.operand = 0
  once : Has cf.type mkPointers → seg.isdbi → f.tgtAddr.off.toNat % 256 ^ seg.operand = 0
  segment : farSegment cf seg f = seg.addr.seg.toNat
  before : last.Precedes (seg.locAddr f).off → 2 ≤ f.off →
    (∃ i, nop = some (d, i)) ∧ byteAt seg.bytes (f.off - 2) = nopId

end

/-! ## far pointers -/

/-- the flags that make a far pointer -/
theorem pointerSize_cases {type : FixType} {n : Nat} (h : pointerSize type = some n) :
    (n = 2 ∨ n = 4) ∧ fixGetOffset type = n ∧ Has type fixBase := by
  have ho : type &&& fixOffsetMask = type &&& fixPointerMask &&& fixOffsetMask := by
    rw [BitVec.and_assoc]
    rfl
  have hb : type &&& fixBase = type &&& fixPointerMask &&& fixBase := by
    rw [BitVec.and_assoc]
    rfl
  rw [pointerSize] at h
  split_ifs at h with h1 h2
  · obtain rfl := Option.some.inj h
    exact ⟨Or.inl rfl, by rw [fixGetOffset, ho, h1]; rfl, by rw [Has, hb, h1]; decide⟩
  · obtain rfl := Option.some.inj h
    exact ⟨Or.inr rfl, by rw [fixGetOffset, ho, h2]; rfl, by rw [Has, hb, h2]; decide⟩

theorem pointer_size {type : FixType} {n : Nat} (h : pointerSize type = some n) :
    calcFixupSize type = n + 2 := by
  obtain ⟨hn, hk, hb⟩ := pointerSize_cases h
  rw [calcFixupSize, if_pos hb, hk]
  rcases hn with rfl | rfl <;> rfl

theorem mput_length {size : Nat} {data : List UInt8} (h : size ≤ data.length) (val : Off) :
    (mput size data val).length = data.length := by
  rw [mput, List.length_append, leBytes_length, List.length_drop]
  omega

/-- the offset of a far pointer is patched in place -/
theorem patchOffset_length {type : FixType} {n : Nat} (h : pointerSize type = some n)
    {data : List UInt8} (hl : n ≤ data.length) (val : Off) (isdelta : Bool) :
    (patchOffset type data val isdelta).data.length = data.length := by
  obtain ⟨hn, hk, -⟩ := pointerSize_cases h
  by_cases hv : val = 0
  · rw [patchOffset, if_pos hv]
  · rw [patchOffset, if_neg hv]
    simp only [hk]
    rcases hn with rfl | rfl
    · show (patchOffset16 _ _ _ _ _).data.length = _
      rw [patchOffset16]
      dsimp only
      split_ifs <;> exact mput_length hl _
    · exact mput_length hl _

theorem patchSegment_length (cf : Config) (isdbi done : Bool) (type : FixType) (tgt : TargAddr)
    (data : List UInt8) (pos : Nat) :
    (patchSegment cf isdbi done type tgt data pos).length = data.length := by
  have hp : ∀ (xs : List UInt8) v, (putWord xs pos v).length = xs.length := by
    intro xs v
    rw [putWord, writeBytes_length]
  rw [patchSegment]
  split_ifs <;> simp only [hp]

theorem patchData_length (cf : Config) (isdbi : Bool) (fix : FixReloData) {n : Nat}
    (h : pointerSize fix.type = some n) (himp : fix.imported = false) {data : List UInt8}
    (hl : n ≤ data.length) : (patchData cf isdbi fix data).length = data.length := by
  obtain ⟨hn, hk, hb⟩ := pointerSize_cases h
  have ht : (if Has fix.type fixNoadj ∧ fix.imported = true ∧
      Has cf.type (mkOs2Flat ||| mkWinVxd) then fix.type &&& fixNoadj else fix.type) = fix.type := by
    rw [himp]
    exact if_neg fun hc => by simpa using hc.2.1
  rw [patchData]
  dsimp only
  rw [ht]
  split_ifs
  all_goals first
    | rfl
    | rw [patchSegment_length, patchOffset_length h hl]
    | rw [patchSegment_length]

/-! ## what is rewritten -/

theorem farCallOpt_cases {cf : Config} {seg : Segdata} {last : Globals} {fix : FixReloData}
    {addbuf : List UInt8} {r : Globals × List UInt8} (h : farCallOpt cf seg last fix addbuf = some r) :
    ∃ n, pointerSize fix.type = some n ∧ fix.imported = false ∧ fix.locAddr.seg = fix.tgtAddr.seg ∧
      rewrite last fix.type fix.locAddr.off n (mget n (addbuf.drop 2) +
        if Has cf.type mkPointers then fix.tgtAddr.off else 0) addbuf = some r := by
  rw [farCallOpt] at h
  by_cases hc : cf.otherMachine = true ∨ Has fix.type fixUnsafe ∨ fix.imported = true ∨ Has fix.type fixAbs
  · rw [if_pos hc] at h
    cases h
  · rw [if_neg hc] at h
    have himp : fix.imported = false := by
      rw [← Bool.not_eq_true]
      exact fun e => hc (Or.inr (Or.inr (Or.inl e)))
    cases hn : pointerSize fix.type with
    | none =>
      rw [hn] at h
      cases h
    | some n =>
      rw [hn] at h
      dsimp only at h
      by_cases hs : fix.locAddr.seg ≠ fix.tgtAddr.seg ∨ ¬(seg.canfarcall = true ∨ seg.iscode = true)
      · rw [if_pos hs] at h
        cases h
      · rw [if_neg hs] at h
        refine ⟨n, rfl, himp, not_not.mp fun e => hs (Or.inl e), ?_⟩
        rw [← h]
        by_cases hp : Has cf.type mkPointers
        · rw [if_pos hp, if_pos hp]
        · rw [if_neg hp, if_neg hp, add_zero]

/-- the three rewritings: the new instruction, and what happens to the byte before it -/
inductive Rewritten (last : Globals) (type : FixType) (locOff : Off) (n : Nat) (temp : Off)
    (addbuf : List UInt8) : Globals → List UInt8 → List UInt8 → Prop
  | jump (h : byteAt addbuf 1 = farJmpId) :
      Rewritten last type locOff n temp addbuf last addbuf
        (nearJmpId :: (leBytes n (temp - (locOff + BitVec.ofNat 32 n)).toNat ++ leBytes 2 movAxaxId))
  | odd (h : byteAt addbuf 1 = farCallId) (ho : Has locOff 1) :
      Rewritten last type locOff n temp addbuf ⟨locOff, type &&& fixPointerMask⟩ addbuf
        (pushcsId :: nearCallId ::
          (leBytes n (temp - (locOff + BitVec.ofNat 32 (n + 2)) + 1).toNat ++ [nopId]))
  | even (h : byteAt addbuf 1 = farCallId) (ho : ¬Has locOff 1) :
      Rewritten last type locOff n temp addbuf last
        (if last.Precedes locOff then writeBytes addbuf 0 [ssOverride] else addbuf)
        (pushcsId :: csOverride :: nearCallId ::
          (leBytes n (temp - (locOff + BitVec.ofNat 32 (n + 2))).toNat ++ []))

theorem rewrite_cases {last : Globals} {type : FixType} {locOff : Off} {n : Nat} {temp : Off}
    {addbuf : List UInt8} {last' : Globals} {buf' : List UInt8}
    (h : rewrite last type locOff n temp addbuf = some (last', buf')) :
    ∃ front code, Rewritten last type locOff n temp addbuf last' front code ∧
      buf' = writeBytes front 1 code := by
  rw [rewrite] at h
  dsimp only at h
  split_ifs at h with h1 h2 h3 h4
  · obtain ⟨rfl, rfl⟩ := Prod.mk.inj (Option.some.inj h)
    exact ⟨_, _, .jump h1, rfl⟩
  · obtain ⟨rfl, rfl⟩ := Prod.mk.inj (Option.some.inj h)
    exact ⟨_, _, .odd h2 h3, rfl⟩
  · obtain ⟨rfl, rfl⟩ := Prod.mk.inj (Option.some.inj h)
    exact ⟨_, _, .even h2 h3, by rw [if_pos h4, List.append_nil]⟩
  · obtain ⟨rfl, rfl⟩ := Prod.mk.inj (Option.some.inj h)
    exact ⟨_, _, .even h2 h3, by rw [if_neg h4, List.append_nil]⟩

/-! ## `addbuf` -/

section
variable {seg : Segdata} {f : Fixup} {data : List UInt8}

theorem shift_le (f : Fixup) : f.shift ≤ 2 ∧ f.shift ≤ f.off := by
  rw [Fixup.shift]
  omega

theorem front_length (seg : Segdata) (f : Fixup) :
    (List.replicate (2 - f.shift) (0 : UInt8) ++ slice seg.bytes (f.off - f.shift) f.shift).length
      = 2 := by
  have := shift_le f
  rw [List.length_append, List.length_replicate, slice_length]
  omega

theorem addbuf_eq (seg : Segdata) (f : Fixup) (data : List UInt8) :
    seg.addbuf f data = (List.replicate (2 - f.shift) 0
      ++ slice seg.bytes (f.off - f.shift) f.shift) ++ data := by
  rw [Segdata.addbuf, List.append_assoc]

theorem addbuf_length (seg : Segdata) (f : Fixup) (data : List UInt8) :
    (seg.addbuf f data).length = 2 + data.length := by
  rw [addbuf_eq, List.length_append, front_length]

theorem addbuf_drop (seg : Segdata) (f : Fixup) (data : List UInt8) :
    (seg.addbuf f data).drop 2 = data := by
  rw [addbuf_eq, List.drop_left' (front_length seg f)]

/-- the bytes before the field, where the segment has them -/
theorem addbuf_front {j : Nat} (hj : j < 2) (hs : 2 ≤ j + f.shift) :
    byteAt (seg.addbuf f data) j = byteAt seg.bytes (f.off + j - 2) := by
  have hsh := shift_le f
  have e : j = (List.replicate (2 - f.shift) (0 : UInt8)).length + (j - (2 - f.shift)) := by
    rw [List.length_replicate]
    omega
  rw [Segdata.addbuf, e, byteAt_append_right, byteAt_append_left _ _ _ (by rw [slice_length]; omega),
    byteAt_slice _ _ _ _ (by omega), List.length_replicate]
  congr 1
  omega

/-- there is no instruction before the first byte of a segment -/
theorem off_pos {b : UInt8} (h : byteAt (seg.addbuf f data) 1 = b) (hb : b ≠ 0) : 1 ≤ f.off := by
  by_contra hc
  have h0 : f.off = 0 := by omega
  have hs : f.shift = 0 := by rw [Fixup.shift, h0]; rfl
  rw [Segdata.addbuf, hs, byteAt_append_left _ _ _ (by rw [List.length_replicate]; omega)] at h
  exact hb h.symm

variable {buf : List UInt8} {size : Nat} (hl : buf.length = 2 + size)
  (hin : f.off + size ≤ seg.bytes.length)

include hl hin

theorem putInfo_byteAt {j : Nat} (hs : 2 ≤ j + f.shift) (hj : j < 2 + size) :
    byteAt (seg.putInfo f buf).bytes (f.off + j - 2) = byteAt buf j := by
  have hsh := shift_le f
  have e : f.off + j - 2 = f.off - f.shift + (j - (2 - f.shift)) := by omega
  show byteAt (writeBytes seg.bytes (f.off - f.shift) (buf.drop (2 - f.shift))) _ = _
  rw [e, byteAt_writeBytes _ _ _ _ (by rw [List.length_drop]; omega) (by rw [List.length_drop]; omega),
    byteAt_drop]
  congr 1
  omega

theorem putInfo_frame {i : Nat} (hi : i + f.shift < f.off ∨ f.off + size ≤ i) :
    byteAt (seg.putInfo f buf).bytes i = byteAt seg.bytes i := by
  have hsh := shift_le f
  show byteAt (writeBytes seg.bytes (f.off - f.shift) (buf.drop (2 - f.shift))) i = _
  exact writeBytes_frame _ _ _ _ (by rw [List.length_drop]; omega)

/-- an instruction written at position 1 of `addbuf` -/
theorem putInfo_code {front code : List UInt8} (hb : buf = writeBytes front 1 code)
    (hf : front.length = 2 + size) (hc : code.length = 1 + size) (hoff : 1 ≤ f.off) :
    slice (seg.putInfo f buf).bytes (f.off - 1) (1 + size) = code := by
  have h1 : 1 ≤ f.shift := by
    rw [Fixup.shift]
    omega
  apply ext_byteAt _ _ (by rw [slice_length, hc])
  intro i hi
  rw [slice_length] at hi
  have e : f.off - 1 + i = f.off + (1 + i) - 2 := by omega
  rw [byteAt_slice _ _ _ _ hi, e, putInfo_byteAt hl hin (by omega) (by omega), hb,
    byteAt_writeBytes _ _ _ _ (by omega) (by omega)]

end

/-! ## one step -/

/-- a fixup of a segment is never resolved as self-relative -/
theorem resolved_not_base {lk : Link} {fix : FixReloData} {msgs : List Msg} {data : List UInt8}
    {handled : Bool} (h : checkSpecials lk fix = some (.resolved msgs data handled)) :
    ¬Has fix.type fixBase := by
  have hc : checkSelfRel lk fix = some (.resolved msgs data handled) := by
    rw [checkSpecials] at h
    dsimp only at h
    split_ifs at h
    all_goals first | exact h | injection Option.some.inj h
  rw [checkSelfRel, checkImported] at hc
  split_ifs at hc
  all_goals first | assumption | injection Option.some.inj hc

/-- a step that rewrites: the fixup is a far pointer, and its field has been patched -/
theorem relocate_cases {cf : Config} {last last' : Globals} {seg seg' : Segdata} {f : Fixup}
    (h : relocate cf last seg f = some (last', seg', true)) :
    ∃ n front code, pointerSize f.type = some n ∧ f.off + (n + 2) ≤ seg.bytes.length ∧
      f.imported = false ∧ seg.addr.seg = f.tgtAddr.seg ∧
      Rewritten last f.type (seg.locAddr f).off n (mget n (patchedField cf seg f) +
        if Has cf.type mkPointers then f.tgtAddr.off else 0)
        (seg.addbuf f (patchedField cf seg f)) last' front code ∧
      seg' = seg.putInfo f (writeBytes front 1 code) := by
  rw [relocate] at h
  by_cases hin : seg.bytes.length < f.off + calcFixupSize f.type
  · rw [if_pos hin] at h
    cases h
  rw [if_neg hin] at h
  obtain ⟨outcome, ho, h⟩ := Option.map_eq_some_iff.mp h
  -- only a far pointer is rewritten, and that is never a displacement
  have hdata : ∀ data, relocateData cf last seg f data = (last', seg', true) →
      ∃ n front code, pointerSize f.type = some n ∧ f.imported = false ∧
        seg.addr.seg = f.tgtAddr.seg ∧
        Rewritten last f.type (seg.locAddr f).off n
          (mget n (patchData cf seg.isdbi (seg.fix f) data) +
            if Has cf.type mkPointers then f.tgtAddr.off else 0)
          (seg.addbuf f (patchData cf seg.isdbi (seg.fix f) data)) last' front code ∧
        seg' = seg.putInfo f (writeBytes front 1 code) := by
    intro data hd
    rw [relocateData] at hd
    cases hf : farCallOpt cf seg last (seg.fix f)
        (seg.addbuf f (patchData cf seg.isdbi (seg.fix f) data)) with
    | none =>
      rw [hf] at hd
      cases hd
    | some r =>
      rw [hf] at hd
      obtain ⟨n, hn, himp, hseg, hrw⟩ := farCallOpt_cases hf
      rw [addbuf_drop] at hrw
      obtain ⟨front, code, hR, hbuf⟩ := rewrite_cases (show rewrite _ _ _ _ _ _ = some (r.1, r.2) from hrw)
      obtain ⟨e1, e2⟩ := Prod.mk.inj hd
      obtain ⟨e2, -⟩ := Prod.mk.inj e2
      rw [e1] at hR
      exact ⟨n, front, code, hn, himp, hseg, hR, by rw [← hbuf, ← e2]⟩
  cases outcome with
  | done msgs data => cases h
  | resolved msgs data handled =>
    cases handled with
    | true => cases h
    | false =>
      obtain ⟨n, front, code, hn, -⟩ := hdata data h
      exact absurd (pointerSize_cases hn).2.2 (resolved_not_base ho)
  | declined =>
    obtain ⟨n, front, code, hn, himp, hseg, hR, hs⟩ := hdata _ h
    refine ⟨n, front, code, hn, ?_, himp, hseg, hR, hs⟩
    rw [← pointer_size hn]
    omega

/-- where a near instruction of `k` bytes leads whose displacement counts from its end -/
theorem near_target {n k : Nat} (hn : n = 2 ∨ n = 4) (locOff bias temp : Off)
    (hb : bias.toNat % 256 ^ n = 0) :
    ((locOff - 1 + bias).toNat % 256 ^ n + (k + 1)
      + (temp - (locOff + BitVec.ofNat 32 k)).toNat % 256 ^ n) % 256 ^ n = temp.toNat % 256 ^ n := by
  have h1 := locOff.isLt
  have h2 := bias.isLt
  have h3 := temp.isLt
  rw [BitVec.toNat_add, BitVec.toNat_sub, BitVec.toNat_sub, BitVec.toNat_add, BitVec.toNat_ofNat]
  have e1 : (1 : Off).toNat = 1 := rfl
  rw [e1]
  rcases hn with rfl | rfl
  · norm_num at *
    omega
  · norm_num at *
    omega

theorem near_odd (locOff temp : Off) (n : Nat) :
    temp - (locOff + BitVec.ofNat 32 (n + 2)) + 1 = temp - (locOff + BitVec.ofNat 32 (n + 1)) := by
  have e : BitVec.ofNat 32 (n + 2) = BitVec.ofNat 32 (n + 1) + 1 := by
    rw [show (1 : Off) = BitVec.ofNat 32 1 from rfl, ← BitVec.ofNat_add]
  rw [e]
  ring

theorem operand_cases (seg : Segdata) : seg.operand = 2 ∨ seg.operand = 4 := by
  rw [Segdata.operand]
  split_ifs
  · exact Or.inr rfl
  · exact Or.inl rfl

section
variable {cf : Config} {last last' : Globals} {seg : Segdata} {f : Fixup} {nop : Option (Nat × Nat)}
  {d : Nat} {front code : List UInt8}

/-- the target of the near instruction is the offset of the far pointer -/
theorem temp_farOffset (hs : Sound cf seg f last nop d) :
    (mget seg.operand (patchedField cf seg f) +
      if Has cf.type mkPointers then f.tgtAddr.off else 0).toNat % 256 ^ seg.operand
      = farOffset cf seg f := by
  have hn := operand_cases seg
  have hlt := leNat_lt ((patchedField cf seg f).take seg.operand)
  have hm : (mget seg.operand (patchedField cf seg f)).toNat
      = leNat ((patchedField cf seg f).take seg.operand) := by
    have hlen : ((patchedField cf seg f).take seg.operand).length ≤ 4 := by
      rw [List.length_take]
      omega
    have hpow := Nat.pow_le_pow_right (show 0 < 256 by omega) hlen
    rw [mget, BitVec.toNat_ofNat, Nat.mod_eq_of_lt (by omega)]
  have hdvd : 256 ^ seg.operand ∣ 2 ^ 32 := by
    rcases hn with e | e <;> rw [e] <;> norm_num
  rw [farOffset, BitVec.toNat_add, hm, Nat.mod_mod_of_dvd _ hdvd]
  by_cases hp : Has cf.type mkPointers
  · rw [if_pos hp]
    by_cases hi : seg.isdbi = true
    · rw [if_neg fun hc => hc.2 hi, Nat.add_zero, Nat.add_mod, hs.once hp hi, Nat.add_zero, Nat.mod_mod]
    · rw [if_pos ⟨hp, hi⟩]
  · rw [if_neg hp, if_neg fun hc => hp hc.1]
    rfl

theorem Rewritten.code_length {type : FixType} {locOff : Off} {n : Nat} {temp : Off}
    {addbuf : List UInt8} (h : Rewritten last type locOff n temp addbuf last' front code) :
    code.length = n + 3 := by
  cases h
  · rw [List.length_cons, List.length_append, leBytes_length, leBytes_length]
  · rw [List.length_cons, List.length_cons, List.length_append, leBytes_length]
    rfl
  · rw [List.length_cons, List.length_cons, List.length_cons, List.length_append, leBytes_length]
    rfl

theorem Rewritten.opcode {type : FixType} {locOff : Off} {n : Nat} {temp : Off}
    {addbuf : List UInt8} (h : Rewritten last type locOff n temp addbuf last' front code) :
    byteAt addbuf 1 ≠ 0 := by
  cases h with
  | jump h => rw [h]; decide
  | odd h => rw [h]; decide
  | even h => rw [h]; decide

/-- the new instruction does what the far one does -/
theorem rewritten_same (hs : Sound cf seg f last nop d) (hop : byteAt (seg.addbuf f (patchedField cf seg f)) 1
      = byteAt seg.bytes (f.off - 1))
    (h : Rewritten last f.type (seg.locAddr f).off seg.operand (mget seg.operand (patchedField cf seg f) +
        if Has cf.type mkPointers then f.tgtAddr.off else 0)
        (seg.addbuf f (patchedField cf seg f)) last' front code) :
    ∃ far near,
      transfer seg.operand seg.addr.seg.toNat (instrIp cf seg f) [] (farBytes cf seg f) = some far ∧
      transfer seg.operand seg.addr.seg.toNat (instrIp cf seg f) [] code = some near ∧
      Same seg (instrIp cf seg f) far near := by
  have hn := operand_cases seg
  have htemp := temp_farOffset hs
  generalize (mget seg.operand (patchedField cf seg f) +
    if Has cf.type mkPointers then f.tgtAddr.off else 0) = temp at h htemp
  have hoff : leNat (leBytes seg.operand (farOffset cf seg f)) = farOffset cf seg f := by
    rw [leNat_leBytes, farOffset, Nat.mod_mod]
  have hsg : leNat (leBytes 2 (farSegment cf seg f)) = seg.addr.seg.toNat := by
    rw [leNat_leBytes, hs.segment]
    exact Nat.mod_eq_of_lt seg.addr.seg.isLt
  have hl := leBytes_length seg.operand (farOffset cf seg f)
  have hl2 := leBytes_length 2 (farSegment cf seg f)
  cases h with
  | jump h1 =>
    have hb : byteAt seg.bytes (f.off - 1) = 0xEA := by rw [← hop, h1]; rfl
    refine ⟨_, _, by rw [farBytes, hb]; exact transfer_far_jump _ _ hl hl2,
      transfer_jump _ _ (leBytes_length _ _) _, hsg.symm, ?_, Or.inl ⟨rfl, rfl⟩⟩
    rw [leNat_leBytes, hoff, ← htemp, ← near_target (k := seg.operand) hn (seg.locAddr f).off _ temp hs.place]
    rw [instrIp, Nat.add_assoc (_ % _) 1, Nat.add_comm 1]
  | odd h1 ho =>
    have hb : byteAt seg.bytes (f.off - 1) = 0x9A := by rw [← hop, h1]; rfl
    refine ⟨_, _, by rw [farBytes, hb]; exact transfer_far _ _ hl hl2,
      transfer_push _ _ (leBytes_length _ _) _, hsg.symm, ?_, Or.inr ⟨seg.operand + 2, ?_, ?_, by omega, by omega⟩⟩
    · rw [leNat_leBytes, hoff, ← htemp, near_odd,
        ← near_target (k := seg.operand + 1) hn (seg.locAddr f).off _ temp hs.place]
      rw [instrIp, Nat.add_assoc (_ % _) 2, Nat.add_comm 2]
    · rw [Nat.add_right_comm (instrIp cf seg f) 1 seg.operand]
    · show [(instrIp cf seg f + 2 + seg.operand) % _, _] = _
      rw [Nat.add_assoc, Nat.add_comm 2]
  | even h1 ho =>
    have hb : byteAt seg.bytes (f.off - 1) = 0x9A := by rw [← hop, h1]; rfl
    refine ⟨_, _, by rw [farBytes, hb]; exact transfer_far _ _ hl hl2,
      transfer_push_override _ _ (leBytes_length _ _) _, hsg.symm, ?_,
      Or.inr ⟨seg.operand + 3, ?_, ?_, by omega, by omega⟩⟩
    · rw [leNat_leBytes, hoff, ← htemp,
        ← near_target (k := seg.operand + 2) hn (seg.locAddr f).off _ temp hs.place]
      rw [instrIp, Nat.add_assoc (_ % _) 3, Nat.add_comm 3]
    · rw [Nat.add_right_comm (instrIp cf seg f) 1 seg.operand]
    · show [(instrIp cf seg f + 3 + seg.operand) % _, _] = _
      rw [Nat.add_assoc, Nat.add_comm 3]

end

/-! ## what is remembered -/

/-- a remembered call has its NOP where the history says, `n + 1` bytes behind its field -/
def Remembered (tr : Trace) : Prop :=
  tr.last.lastOptType = 0 ∨ ∃ n d i,
    (tr.last.lastOptType = fixBaseOffset16 ∧ n = 2 ∨ tr.last.lastOptType = fixBaseOffset32 ∧ n = 4) ∧
    tr.nop = some (d, i) ∧ i < 2 ^ 32 ∧
    tr.last.lastOptimized + BitVec.ofNat 32 (n + 1) = (tr.segs d).addr.off + BitVec.ofNat 32 i

theorem relocate_keeps {cf : Config} {last last' : Globals} {seg seg' : Segdata} {f : Fixup}
    {rewrote : Bool} (h : relocate cf last seg f = some (last', seg', rewrote)) :
    seg'.addr = seg.addr ∧ (rewrote = false → last' = last) := by
  rw [relocate] at h
  split_ifs at h
  obtain ⟨outcome, -, h⟩ := Option.map_eq_some_iff.mp h
  have hdata : ∀ data, relocateData cf last seg f data = (last', seg', rewrote) →
      seg'.addr = seg.addr ∧ (rewrote = false → last' = last) := by
    intro data hd
    rw [relocateData] at hd
    split at hd
    · obtain ⟨e1, e2⟩ := Prod.mk.inj hd
      obtain ⟨rfl, rfl⟩ := Prod.mk.inj e2
      exact ⟨rfl, fun e => by cases e⟩
    · obtain ⟨rfl, e2⟩ := Prod.mk.inj hd
      obtain ⟨rfl, rfl⟩ := Prod.mk.inj e2
      exact ⟨rfl, fun _ => rfl⟩
  have hdone : ∀ data, (last, seg.putInfo f (seg.addbuf f data), false) = (last', seg', rewrote) →
      seg'.addr = seg.addr ∧ (rewrote = false → last' = last) := by
    intro data hd
    obtain ⟨rfl, e2⟩ := Prod.mk.inj hd
    obtain ⟨rfl, rfl⟩ := Prod.mk.inj e2
    exact ⟨rfl, fun _ => rfl⟩
  cases outcome with
  | done msgs data => exact hdone data h
  | resolved msgs data handled =>
    cases handled with
    | true => exact hdone data h
    | false => exact hdata data h
  | declined => exact hdata _ h

/-- the byte of the instruction, in `addbuf` and in the segment -/
theorem opcode_eq {seg : Segdata} {f : Fixup} {data : List UInt8}
    (h : byteAt (seg.addbuf f data) 1 ≠ 0) :
    1 ≤ f.off ∧ byteAt (seg.addbuf f data) 1 = byteAt seg.bytes (f.off - 1) := by
  have hoff : 1 ≤ f.off := off_pos rfl h
  have hs : 2 ≤ 1 + f.shift := by
    rw [Fixup.shift]
    omega
  refine ⟨hoff, ?_⟩
  rw [addbuf_front (by norm_num) hs]
  congr 1

theorem remembered_step {cf : Config} {tr tr' : Trace} {d : Nat} {f : Fixup} (hr : Remembered tr)
    (h : step cf tr d f = some tr') : Remembered tr' := by
  obtain ⟨⟨last', seg', rewrote⟩, hrel, rfl⟩ := Option.map_eq_some_iff.mp h
  obtain ⟨haddr, hlast⟩ := relocate_keeps hrel
  have hsegs : ∀ d', (Function.update tr.segs d seg' d').addr = (tr.segs d').addr := by
    intro d'
    by_cases e : d' = d
    · subst e
      rw [Function.update_self, haddr]
    · rw [Function.update_of_ne e]
  -- nothing is remembered anew
  have hold : last' = tr.last → Remembered ⟨Function.update tr.segs d seg', last', tr.nop⟩ := by
    rintro rfl
    rcases hr with h0 | ⟨n, d', i, hty, hnop, hi, ho⟩
    · exact Or.inl h0
    · exact Or.inr ⟨n, d', i, hty, hnop, hi, by rw [hsegs]; exact ho⟩
  cases rewrote with
  | false =>
    have hn : (match pointerSize f.type with
        | some n => if false = true ∧ LeavesNop (tr.segs d) f then some (d, f.off + n + 1) else tr.nop
        | none => tr.nop) = tr.nop := by
      cases pointerSize f.type with
      | none => rfl
      | some n => exact if_neg fun hc => by cases hc.1
    show Remembered ⟨_, last', _⟩
    rw [hn]
    exact hold (hlast rfl)
  | true =>
    obtain ⟨n, front, code, hn, hin, himp, hseg, hR, hs⟩ := relocate_cases hrel
    obtain ⟨hoff, hop⟩ := opcode_eq hR.opcode
    have hlen := (tr.segs d).short
    show Remembered ⟨_, last', match pointerSize f.type with
        | some n => if true = true ∧ LeavesNop (tr.segs d) f then some (d, f.off + n + 1) else tr.nop
        | none => tr.nop⟩
    rw [hn]
    show Remembered ⟨_, last',
      if true = true ∧ LeavesNop (tr.segs d) f then some (d, f.off + n + 1) else tr.nop⟩
    cases hR with
    | jump h1 =>
      have hno : ¬(true = true ∧ LeavesNop (tr.segs d) f) := by
        intro hc
        have hb : byteAt (tr.segs d).bytes (f.off - 1) = farCallId := hc.2.1
        rw [← hop, h1] at hb
        exact absurd hb (by decide)
      rw [if_neg hno]
      exact hold rfl
    | even h1 ho =>
      rw [if_neg fun hc => ho hc.2.2]
      exact hold rfl
    | odd h1 ho =>
      rw [if_pos ⟨rfl, by rw [← hop]; exact h1, ho⟩]
      refine Or.inr ⟨n, d, f.off + n + 1, ?_, rfl, by omega, ?_⟩
      · rw [pointerSize] at hn
        split_ifs at hn with e1 e2
        · exact Or.inl ⟨e1, (Option.some.inj hn).symm⟩
        · exact Or.inr ⟨e2, (Option.some.inj hn).symm⟩
      · rw [hsegs, Nat.add_assoc f.off, BitVec.ofNat_add f.off]
        exact add_assoc (tr.segs d).addr.off (BitVec.ofNat 32 f.off) (BitVec.ofNat 32 (n + 1))

theorem remembered {cf : Config} {segs : Nat → Segdata} {tr : Trace} (h : Reachable cf segs tr) :
    Remembered tr := by
  induction h with
  | start => exact Or.inl rfl
  | step _ hs ih => exact remembered_step ih hs

/-- the call that is remembered as the one before has its NOP right before the instruction -/
theorem precedes_nop {tr : Trace} (hr : Remembered tr) {d : Nat} {f : Fixup} {i : Nat}
    (hp : tr.last.Precedes ((tr.segs d).locAddr f).off) (hnop : tr.nop = some (d, i)) (hoff : 2 ≤ f.off)
    (hlen : f.off < 2 ^ 32) : i = f.off - 2 := by
  rcases hr with h0 | ⟨n, d', i', hty, hn, hi, ho⟩
  · rcases hp with ⟨e, -⟩ | ⟨e, -⟩ <;> rw [h0] at e <;> exact absurd e (by decide)
  · obtain ⟨rfl, rfl⟩ := Prod.mk.inj (Option.some.inj (hn.symm.trans hnop))
    -- both sides count from the start of the segment
    have hlast : tr.last.lastOptimized
        = (tr.segs d').addr.off + BitVec.ofNat 32 f.off - BitVec.ofNat 32 (n + 3) := by
      rcases hp with ⟨e, -, hl⟩ | ⟨e, -, hl⟩
      · rcases hty with ⟨-, rfl⟩ | ⟨e', -⟩
        · exact hl
        · rw [e] at e'
          exact absurd e' (by decide)
      · rcases hty with ⟨e', -⟩ | ⟨-, rfl⟩
        · rw [e] at e'
          exact absurd e' (by decide)
        · exact hl
    have hsplit : BitVec.ofNat 32 (n + 3) = BitVec.ofNat 32 (n + 1) + BitVec.ofNat 32 2 := by
      rw [← BitVec.ofNat_add]
    have key : BitVec.ofNat 32 f.off = BitVec.ofNat 32 i' + BitVec.ofNat 32 2 := by
      have e : BitVec.ofNat 32 i' = tr.last.lastOptimized + BitVec.ofNat 32 (n + 1)
          - (tr.segs d').addr.off := by
        rw [ho]
        ring
      rw [e, hlast, hsplit]
      ring
    rw [← BitVec.ofNat_add, ← BitVec.toNat_inj, BitVec.toNat_ofNat, BitVec.toNat_ofNat] at key
    omega

/-! ## runs -/

/-- after any run a step that is sound and rewrites an instruction keeps its meaning, and the only byte outside
that it changes is the NOP it wrote behind the call before -/
theorem relocate_optimised {cf : Config} {segs : Nat → Segdata} {tr : Trace}
    (hr : Reachable cf segs tr) {d : Nat} {f : Fixup} {last' : Globals} {seg' : Segdata}
    (hs : Sound cf (tr.segs d) f tr.last tr.nop d)
    (h : relocate cf tr.last (tr.segs d) f = some (last', seg', true)) :
    Optimised cf (tr.segs d) f tr.nop d seg' := by
  obtain ⟨n, front, code, hn, hin, himp, -, hR, rfl⟩ := relocate_cases h
  obtain rfl := hs.size n hn
  obtain ⟨hoff, hop⟩ := opcode_eq hR.opcode
  have hlen := (tr.segs d).short
  have hfield : (patchedField cf (tr.segs d) f).length = (tr.segs d).operand + 2 := by
    have e : ((tr.segs d).fix f).data.length = (tr.segs d).operand + 2 := by
      show (slice _ _ _).length = _
      rw [slice_length, pointer_size hn]
    rw [patchedField, patchData_length cf _ ((tr.segs d).fix f) hn himp (by omega), e]
  have hfront : front.length = 2 + ((tr.segs d).operand + 2) := by
    rw [← hfield, ← addbuf_length (tr.segs d) f]
    cases hR with
    | jump => rfl
    | odd => rfl
    | even =>
      split_ifs
      · rw [writeBytes_length]
      · rfl
  have hbuf : (writeBytes front 1 code).length = 2 + ((tr.segs d).operand + 2) := by
    rw [writeBytes_length, hfront]
  refine ⟨?_, ?_, fun i hi => ?_⟩
  · have hcode := putInfo_code hbuf hin rfl hfront (by rw [hR.code_length]; omega) hoff
    have e : 1 + ((tr.segs d).operand + 2) = (tr.segs d).operand + 3 := by omega
    rw [e] at hcode
    rw [hcode]
    exact rewritten_same hs hop hR
  · exact writeBytes_length _ _ _
  · by_cases hi2 : i + f.shift < f.off ∨ f.off + ((tr.segs d).operand + 2) ≤ i
    · exact Or.inl (putInfo_frame hbuf hin hi2)
    -- the byte before the instruction
    have hsh : f.shift = min f.off 2 := rfl
    have hi3 : i = f.off + 0 - 2 ∧ 2 ≤ f.off := by omega
    have hbyte : byteAt ((tr.segs d).putInfo f (writeBytes front 1 code)).bytes i = byteAt front 0 := by
      rw [hi3.1, putInfo_byteAt hbuf hin (by omega) (by omega), writeBytes_frame _ _ _ _ (by omega)]
    have hkeep : byteAt ((tr.segs d).addbuf f (patchedField cf (tr.segs d) f)) 0
        = byteAt (tr.segs d).bytes i := by
      rw [addbuf_front (by norm_num) (by omega), hi3.1]
    rw [hbyte]
    cases hR with
    | jump => exact Or.inl hkeep
    | odd => exact Or.inl hkeep
    | even =>
      split_ifs with hp
      · obtain ⟨⟨i', hnop⟩, hb⟩ := hs.before hp hi3.2
        have he := precedes_nop (remembered hr) hp hnop hi3.2 (by omega)
        have hi4 : i = f.off - 2 := by omega
        exact Or.inr ⟨by omega, by rw [hnop, he, hi4], by rw [hi4, hb]⟩
      · exact Or.inl hkeep

def dosConfig : Config :=
  { type := mkDosExe, segShift := 4, genRelRelocs := false, groups := [], base := 0
    otherMachine := false, flattenDbi := false, cvDbi := false
    rdosCodeSeg := 0, rdosCodeSel := 0, rdosDataSeg := 0, rdosDataSel := 0 }

/-- two code segments: a far call at the start of the first, and one behind five bytes of the second -/
def twoSegs (d : Nat) : Segdata :=
  if d = 0 then ⟨[0x9A, 0, 0, 0, 0], ⟨0, 0⟩, true, true, false, false, by decide⟩
  else ⟨[0x40, 0x40, 0x40, 0x40, 0x40, 0x9A, 0, 0, 0, 0], ⟨1, 0⟩, true, true, false, false, by decide⟩

def farCallTo (off : Nat) (tgt : TargAddr) : Fixup :=
  ⟨off, tgt, fixBaseOffset16, 0, false, false, false, 0, id, fun _ => rfl⟩

/-- the first segment behind its fixup -/
def firstSeg : Segdata := { twoSegs 0 with bytes := [0x0E, 0xE8, 0xFC, 0, 0x90], short := by decide }

theorem relocate_optimised_first :
    Optimised dosConfig (twoSegs 0) (farCallTo 1 ⟨0, 0x100⟩) none 0 firstSeg := by
  have hs : Sound dosConfig (twoSegs 0) (farCallTo 1 ⟨0, 0x100⟩) resetObj2Supp none 0 := by
    refine ⟨fun n hn => ?_, by decide, by decide, by decide, fun hp => absurd hp (by decide)⟩
    have e : pointerSize (farCallTo 1 ⟨0, 0x100⟩).type = some 2 := by decide
    exact (Option.some.inj (e.symm.trans hn)).symm
  have hrel : relocate dosConfig resetObj2Supp (twoSegs 0) (farCallTo 1 ⟨0, 0x100⟩)
      = some (⟨1, fixBaseOffset16⟩, firstSeg, true) := rfl
  have hr : Reachable dosConfig twoSegs (start twoSegs) := .start
  exact relocate_optimised (d := 0) hr hs hrel

/-- the second call is at the offset behind the first one, but in another segment: the byte before it is
overwritten -/
theorem farCallOpt_stale :
    ¬∀ tr last' seg', Reachable dosConfig twoSegs tr →
      relocate dosConfig tr.last (tr.segs 1) (farCallTo 6 ⟨1, 0x100⟩) = some (last', seg', true) →
      Optimised dosConfig (tr.segs 1) (farCallTo 6 ⟨1, 0x100⟩) tr.nop 1 seg' := by
  intro h
  have hstep : step dosConfig (start twoSegs) 0 (farCallTo 1 ⟨0, 0x100⟩)
      = some ⟨Function.update twoSegs 0 firstSeg, ⟨1, fixBaseOffset16⟩, some (0, 4)⟩ := rfl
  have hopt := h _ ⟨1, fixBaseOffset16⟩
    { twoSegs 1 with
      bytes := [0x40, 0x40, 0x40, 0x40, 0x36, 0x0E, 0x3E, 0xE8, 0xF6, 0], short := by decide }
    (.step .start hstep) rfl
  rcases hopt.frame 4 (Or.inl (by decide)) with e | ⟨-, -, e⟩
  · exact absurd e (by decide)
  · exact absurd e (by decide)

end Wl
