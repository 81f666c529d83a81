import OpenWatcom.Wpack.SecondPass
import OpenWatcom.Wpack.GetBits
import OpenWatcom.Wpack.Unpack

/-!
# Files without codes: `decode.c`

* `noShannonDecode`     `NoShannonDecode`
* `refill_reading`     before each token nine bits are in `getbuf`
* `noShannonStep_token`     a turn of the loop reads a token as it was put
* `decodeLoop_tokens`     a loop that reads the tokens of a file writes it
-/

namespace Wpack

open BitStreams

section
variable (bytes : ℕ → UInt8)

/-- the first lines of the loop -/
def refill (s : Reader) : Reader :=
  if s.getlen = 0 then
    ⟨(s.secondbuf.toBitVec.setWidth 16 <<< 8) ||| (bytes s.next).toBitVec.setWidth 16, 16, bytes (s.next + 1),
      s.next + 2⟩
  else if s.getlen ≤ 8 then fill bytes s
  else s

/-- a turn of the loop: what `count` grows by, and the rest of the state -/
def noShannonStep (s : Reader) (o : Unpacker) : ℕ × Reader × Unpacker :=
  let s := refill bytes s
  if s.getbuf.msb then
    let j := ((s.getbuf >>> 9) &&& 0x3F).toNat
    let r := decodePosition bytes (consume 7 s)
    (j, r.2, putCopy j r.1 o)
  else (1, consume 9 s, put (UInt8.ofBitVec ((s.getbuf >>> 7).setWidth 8)) o)

/-- the loop over `count`, which `DoDecode` has too -/
def decodeLoop (step : Reader → Unpacker → Option (ℕ × Reader × Unpacker)) (textsize : ℕ) :
    ℕ → ℕ → Reader → Unpacker → Option (Reader × Unpacker)
  | 0, _, _, _ => none
  | fuel + 1, count, s, o =>
    if count < textsize then
      (step s o).bind fun r => decodeLoop step textsize fuel (count + r.1) r.2.1 r.2.2
    else some (s, o)

/-- `getlen`, `getbuf` and `secondbuf` before the loop, where `next` bytes have been read -/
def startReader (next : ℕ) : Reader := ⟨0#16, 0, bytes next, next + 1⟩

/-- `old` and `text` are what an earlier file has left -/
def noShannonDecode (fuel next : ℕ) (old : Reader) (text : ℕ → UInt8) (textsize : ℕ) : Option (Reader × List UInt8) :=
  if textsize = 0 then some (old, [])
  else
    (decodeLoop (fun s o => some (noShannonStep bytes s o)) textsize fuel 0 (startReader bytes next)
      (startUnpack text)).map fun r => (r.1, r.2.written)

end

section
variable {bytes : ℕ → UInt8} {p : ℕ} {s : Reader}

theorem startReader_reading (bytes : ℕ → UInt8) (next : ℕ) : Reading bytes (8 * next) (startReader bytes next) := by
  refine ⟨fun i hi => absurd hi (Nat.not_lt_zero i), fun i _ hb => ?_, Nat.zero_le _, next, rfl, rfl, rfl⟩
  have hb' : (0#16).getMsbD i = true := hb
  rw [BitVec.getMsbD_zero] at hb'
  exact absurd hb' (by decide)

theorem refill_reading (h : Reading bytes p s) :
    Reading bytes p (refill bytes s) ∧ 9 ≤ (refill bytes s).getlen := by
  rw [refill]
  by_cases h0 : s.getlen = 0
  · rw [if_pos h0]
    obtain ⟨q, hq, hnext, hp⟩ := h.second
    have hf := fill_reading (fill_reading (startReader_reading bytes q) (Nat.zero_le _)) (le_refl 8)
    have he : fill bytes (fill bytes (startReader bytes q)) =
        ⟨(s.secondbuf.toBitVec.setWidth 16 <<< 8) ||| (bytes s.next).toBitVec.setWidth 16, 16, bytes (s.next + 1),
          s.next + 2⟩ := by
      simp only [fill, startReader, Nat.sub_zero, Nat.sub_self, Nat.zero_add, BitVec.zero_or, BitVec.shiftLeft_zero,
        hq, hnext]
    rw [← he, show p = 8 * q by omega]
    exact ⟨hf, by rw [he]; show 9 ≤ 16; omega⟩
  · rw [if_neg h0]
    by_cases h8 : s.getlen ≤ 8
    · rw [if_pos h8]
      exact ⟨fill_reading h h8, show 9 ≤ s.getlen + 8 by omega⟩
    · rw [if_neg h8]
      exact ⟨h, by omega⟩

theorem literal_bits : ∀ c < 256, (BitVec.ofNat 32 c <<< 7).toNat >>> (16 - 9) = (BitVec.ofNat 9 c).toNat ∧
    (BitVec.ofNat 9 c).getMsbD 0 = false ∧ ((BitVec.ofNat 9 c).setWidth 16).setWidth 8 = BitVec.ofNat 8 c := by
  decide +kernel

theorem copy_bits : ∀ n < 64,
    (BitVec.ofNat 32 (n + 0x40) <<< 9).toNat >>> (16 - 7) = (BitVec.ofNat 7 (n + 0x40)).toNat ∧
    (BitVec.ofNat 7 (n + 0x40)).getMsbD 0 = true ∧ (((BitVec.ofNat 7 (n + 0x40)).setWidth 16) &&& 0x3F).toNat = n := by
  decide +kernel

theorem noShannonStep_token (h : Reading bytes p s) {t : Token} (ht : Putable none t)
    (ha : Ahead bytes p (tokenBits none t)) (o : Unpacker) :
    ∃ s', noShannonStep bytes s o = (t.length, s', writeToken t o) ∧
      Reading bytes (p + (tokenBits none t).length) s' := by
  obtain ⟨hr, h9⟩ := refill_reading h
  have hmsb : (refill bytes s).getbuf.msb = bitAt bytes (p + 0) := by
    rw [BitVec.msb_eq_getMsbD_zero, hr.buffer 0 (by omega)]
  rw [noShannonStep]
  cases t with
  | literal c =>
    obtain ⟨hbits, hfirst, hvalue⟩ := literal_bits _ c.toNat_lt
    have hbits' : tokenBits none (.literal c) = firstBits 9 (BitVec.ofNat 9 c.toNat) := by
      rw [firstBits_eq, ← hbits, ← codeBits_eq (by decide), tokenBits, List.append_nil]
    rw [hbits'] at ha ⊢
    rw [ahead_firstBits.mp ha 0 (by decide), hfirst] at hmsb
    refine ⟨consume 9 (refill bytes s), ?_, ?_⟩
    · dsimp only
      rw [if_neg (by rw [hmsb]; decide), show (7 : ℕ) = 16 - 9 from rfl, peek hr h9 ha, hvalue]
      show (1, _, put (UInt8.ofBitVec (BitVec.ofNat 8 c.toNat)) o) = _
      rw [show UInt8.ofBitVec (BitVec.ofNat 8 c.toNat) = UInt8.ofNat c.toNat from rfl, UInt8.ofNat_toNat]
      rfl
    · rw [length_firstBits]
      exact consume_reading hr h9
  | copy length position =>
    obtain ⟨hlen, hpos⟩ := ht.small length position rfl
    obtain ⟨hbits, hfirst, hvalue⟩ := copy_bits length hlen
    obtain ⟨hi, hj, hjoin⟩ := position_joined hpos
    have hbits' : tokenBits none (.copy length position) = firstBits 7 (BitVec.ofNat 7 (length + 0x40)) ++
        positionBits (UInt8.ofNat (position >>> 6).toNat) (UInt8.ofNat (position &&& 0x3F).toNat) := by
      rw [firstBits_eq, ← hbits, ← codeBits_eq (by decide), tokenBits]
    rw [hbits'] at ha ⊢
    obtain ⟨ha1, ha2⟩ := ahead_append.mp ha
    rw [length_firstBits] at ha2
    rw [ahead_firstBits.mp ha1 0 (by decide), hfirst] at hmsb
    have hr7 := consume_reading hr (show 7 ≤ (refill bytes s).getlen by omega)
    obtain ⟨hp, hread⟩ := decodePosition_reading hr7 hi hj ha2
    refine ⟨(decodePosition bytes (consume 7 (refill bytes s))).2, ?_, ?_⟩
    · dsimp only
      rw [if_pos hmsb, show (9 : ℕ) = 16 - 7 from rfl, peek hr (by omega) ha1, hvalue, hp, hjoin]
      rfl
    · rw [List.length_append, length_firstBits, ← Nat.add_assoc]
      exact hread

/-- where each turn reads a token, the loop writes the file that the tokens say -/
theorem decodeLoop_tokens {data : List UInt8} {step : Reader → Unpacker → Option (ℕ × Reader × Unpacker)}
    {bits : Token → List Bool} {good : Token → Prop}
    (hstep : ∀ {p : ℕ} {s : Reader} {t : Token}, Reading bytes p s → good t → Ahead bytes p (bits t) → ∀ o,
      ∃ s', step s o = some (t.length, s', writeToken t o) ∧ Reading bytes (p + (bits t).length) s')
    (tokens : List Token) : ∀ {a p fuel : ℕ} {s : Reader} {o : Unpacker},
    Reading bytes p s → Unpacking data a o → Parses data a tokens → (∀ t ∈ tokens, good t) →
    Ahead bytes p (tokens.flatMap bits) → tokens.length < fuel →
    ∃ s' o', decodeLoop step data.length fuel a s o = some (s', o') ∧ o'.written = data ∧
      Reading bytes (p + (tokens.flatMap bits).length) s' := by
  induction tokens with
  | nil =>
    intro a p fuel s o hs ho hp _ _ hf
    obtain ⟨fuel, rfl⟩ := Nat.exists_eq_succ_of_ne_zero (Nat.ne_of_gt hf)
    have ha : a = data.length := hp
    refine ⟨s, o, ?_, ?_, hs⟩
    · rw [decodeLoop, if_neg (by omega)]
    · rw [ho.written, ha, List.take_length]
  | cons t tokens ih =>
    intro a p fuel s o hs ho hp ht ha hf
    obtain ⟨fuel, rfl⟩ := Nat.exists_eq_succ_of_ne_zero (Nat.ne_of_gt (Nat.zero_lt_of_lt hf))
    have hd : Describes data a t := hp.1
    rw [List.flatMap_cons] at ha
    rw [List.length_cons] at hf
    obtain ⟨ha1, ha2⟩ := ahead_append.mp ha
    obtain ⟨s1, hs1, hread⟩ := hstep hs (ht t List.mem_cons_self) ha1 o
    obtain ⟨s', o', hloop, hdata, hend⟩ := ih hread (writeToken_unpacking ho hd) hp.2.2
      (fun t' ht' => ht t' (List.mem_cons_of_mem t ht')) ha2 (show tokens.length < fuel by omega)
    refine ⟨s', o', ?_, hdata, ?_⟩
    · rw [decodeLoop, if_pos hd.lt, hs1, Option.bind_some]
      exact hloop
    · rw [List.flatMap_cons, List.length_append, ← Nat.add_assoc]
      exact hend

end

end Wpack
