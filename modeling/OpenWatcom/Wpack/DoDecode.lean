import OpenWatcom.Wpack.CheckCrc
import OpenWatcom.Wpack.Shannon

/-!
# Files with codes, and the whole of both sides: `decode.c`, `encode.c`

* `decodeSymbol`, `doDecode`     the loop of `DoDecode` and its search of a symbol
* `lookAhead_getMsbD`     sixteen bits of the stream are in `getbuf` before the search
* `decodeSymbol_reading`     behind the search the bits of the code are read
* `written_whole`     behind the loop reading has come to the end of the bytes of the file
* `doEncode_decoded`     every file is written again, with codes or without, and its checksum is right
-/

namespace Wpack

open BitStreams

/-- `Mask` -/
def mask : List UInt8 := [0, 1, 3, 7, 0xF, 0x1F, 0x3F, 0x7F, 0xFF]

section
variable (bytes : ℕ → UInt8) (t : Tables)

/-- `c`; `none` is a search that leaves `MinVal` -/
def decodeSymbol (s : Reader) : Option (ℕ × Reader) :=
  let s := if s.getlen < 8 then fill bytes s else s
  let spare := s.getlen - 8
  let getbuf := s.getbuf ||| (s.secondbuf.toBitVec.setWidth 16 >>> spare)
  (findSymbol t getbuf).map fun r =>
    if r.1 < spare then (r.2, ⟨getbuf <<< r.1, 16 - r.1 - (8 - spare), s.secondbuf, s.next⟩)
    else
      (r.2, ⟨(getbuf <<< r.1) ||| ((s.secondbuf &&& mask.getD spare 0).toBitVec.setWidth 16 <<< (r.1 - spare)),
        16 - r.1 + spare, bytes s.next, s.next + 1⟩)

/-- a turn of the loop: what `count` grows by, and the rest of the state -/
def doDecodeStep (s : Reader) (o : Unpacker) : Option (ℕ × Reader × Unpacker) :=
  (decodeSymbol bytes t s).map fun r =>
    if r.1 < 256 then (1, r.2, put (UInt8.ofNat r.1) o)
    else
      let q := decodePosition bytes r.2
      let j := r.1 - 255 + threshold
      (j, q.2, putCopy j q.1 o)

/-- `old` and `text` are what an earlier file has left -/
def doDecode (fuel next : ℕ) (old : Reader) (text : ℕ → UInt8) (textsize : ℕ) : Option (Reader × List UInt8) :=
  if textsize = 0 then some (old, [])
  else
    (decodeLoop (doDecodeStep bytes t) textsize fuel 0 (startReader bytes next) (startUnpack text)).map fun r =>
      (r.1, r.2.written)

end

/-! ## a symbol -/

section
variable {bytes : ℕ → UInt8} {t : Tables} {p : ℕ} {s : Reader}

theorem widened_getMsbD (b : UInt8) (i : ℕ) :
    (b.toBitVec.setWidth 16).getMsbD i = (decide (8 ≤ i) && b.toBitVec.getMsbD (i - 8)) := by
  rw [BitVec.getMsbD_setWidth, show i + 8 - 16 = i - 8 by omega]

theorem lookAhead_getMsbD (h : Reading bytes p s) (h8 : 8 ≤ s.getlen) {i : ℕ} (hi : i < 16) :
    (s.getbuf ||| (s.secondbuf.toBitVec.setWidth 16 >>> (s.getlen - 8))).getMsbD i = bitAt bytes (p + i) := by
  obtain ⟨q, hq, -, hp⟩ := h.second
  rw [BitVec.getMsbD_or]
  by_cases hlt : i < s.getlen
  · have hz : (s.secondbuf.toBitVec.setWidth 16 >>> (s.getlen - 8)).getMsbD i = false := by
      by_cases hs : i < s.getlen - 8
      · exact getMsbD_right_of_lt _ hs
      · rw [getMsbD_right _ (not_lt.mp hs) hi, widened_getMsbD, decide_eq_false (by omega), Bool.false_and]
    rw [hz, Bool.or_false, h.buffer i hlt]
  · have hb : (s.secondbuf.toBitVec.setWidth 16 >>> (s.getlen - 8)).getMsbD i = bitAt bytes (p + i) := by
      rw [getMsbD_right _ (by omega) hi, widened_getMsbD, decide_eq_true (by omega), Bool.true_and, hq,
        show p + i = 8 * q + (i - s.getlen) by omega, bitAt_byte bytes q (by omega)]
      congr 1
      omega
    rw [hb]
    cases hg : s.getbuf.getMsbD i with
    | false => exact Bool.false_or _
    | true => rw [h.behind i hi hg, Bool.or_true]

theorem filled_reading (h : Reading bytes p s) :
    Reading bytes p (if s.getlen < 8 then fill bytes s else s) ∧
      8 ≤ (if s.getlen < 8 then fill bytes s else s).getlen := by
  by_cases hlt : s.getlen < 8
  · rw [if_pos hlt]
    exact ⟨fill_reading h hlt.le, Nat.le_add_left 8 s.getlen⟩
  · rw [if_neg hlt]
    exact ⟨h, not_lt.mp hlt⟩

theorem mask_getMsbD : ∀ n < 9, ∀ i < 8, (mask.getD n 0).toBitVec.getMsbD i = decide (8 - n ≤ i) := by
  decide

/-- the last bits of a byte behind those of the code -/
theorem masked_getMsbD (b : UInt8) {n k i : ℕ} (hn : n ≤ 8) (hk : n ≤ k) (hk' : k ≤ 16) (hi : i < 16) :
    ((b &&& mask.getD n 0).toBitVec.setWidth 16 <<< (k - n)).getMsbD i =
      (decide (16 - k ≤ i ∧ i < 16 - k + n) && b.toBitVec.getMsbD (i + (k - n) - 8)) := by
  rw [BitVec.getMsbD_shiftLeft, widened_getMsbD]
  by_cases hlt : i < 16 - k + n
  · by_cases h8 : 8 ≤ i + (k - n)
    · rw [decide_eq_true h8, Bool.true_and, UInt8.toBitVec_and, BitVec.getMsbD_and,
        mask_getMsbD n (by omega) _ (by omega), Bool.and_comm]
      congr 1
      exact decide_eq_decide.mpr (by omega)
    · rw [decide_eq_false h8, decide_eq_false (by omega), Bool.false_and, Bool.false_and]
  · rw [BitVec.getMsbD_of_ge _ (i + (k - n) - 8) (by omega), Bool.and_false, decide_eq_false (by omega),
      Bool.false_and]

/-- the symbol that the bits ahead begin with -/
theorem decodeSymbol_reading (h : Reading bytes p s) {n c : ℕ} (hn : n ≤ 16)
    (hfind : ∀ x : BitVec 16, (∀ i < 16, x.getMsbD i = bitAt bytes (p + i)) → findSymbol t x = some (n, c)) :
    ∃ s', decodeSymbol bytes t s = some (c, s') ∧ Reading bytes (p + n) s' := by
  obtain ⟨hr, h8⟩ := filled_reading h
  rw [decodeSymbol]
  generalize (if s.getlen < 8 then fill bytes s else s) = s at hr h8 ⊢
  obtain ⟨q, hq, hnext, hp⟩ := hr.second
  have hle := hr.le
  have hlook := fun {i : ℕ} => lookAhead_getMsbD (i := i) hr h8
  rw [hfind _ fun i hi => hlook hi, Option.map_some]
  generalize s.getbuf ||| (s.secondbuf.toBitVec.setWidth 16 >>> (s.getlen - 8)) = x at hlook
  -- the bits of the code are shifted out
  have hshift : ∀ i < 16, (x <<< n).getMsbD i = (decide (i < 16 - n) && bitAt bytes (p + n + i)) := by
    intro i hi
    rw [BitVec.getMsbD_shiftLeft]
    by_cases hlt : i < 16 - n
    · rw [hlook (by omega), decide_eq_true hlt, Bool.true_and, show p + n + i = p + (i + n) by omega]
    · rw [BitVec.getMsbD_of_ge _ _ (by omega), decide_eq_false hlt, Bool.false_and]
  by_cases hspare : n < s.getlen - 8
  · rw [if_pos hspare]
    refine ⟨_, rfl, fun i (hi : i < 16 - n - (8 - (s.getlen - 8))) => ?_, fun i hi hb => ?_,
      show 16 - n - (8 - (s.getlen - 8)) ≤ 16 by omega, q, hq, hnext,
      show p + n + (16 - n - (8 - (s.getlen - 8))) = 8 * q by omega⟩
    · show (x <<< n).getMsbD i = _
      rw [hshift i (by omega), decide_eq_true (by omega), Bool.true_and]
    · have hb' : (x <<< n).getMsbD i = true := hb
      rw [hshift i hi, Bool.and_eq_true] at hb'
      exact hb'.2
  · rw [if_neg hspare]
    have hbits : ∀ i < 16, ((x <<< n) ||| ((s.secondbuf &&& mask.getD (s.getlen - 8) 0).toBitVec.setWidth 16 <<<
        (n - (s.getlen - 8)))).getMsbD i = (decide (i < 16 - n + (s.getlen - 8)) && bitAt bytes (p + n + i)) := by
      intro i hi
      rw [BitVec.getMsbD_or, hshift i hi, masked_getMsbD _ (by omega) (not_lt.mp hspare) hn hi]
      by_cases hin : 16 - n ≤ i ∧ i < 16 - n + (s.getlen - 8)
      · rw [decide_eq_true hin, decide_eq_false (by omega), decide_eq_true hin.2, Bool.false_and, Bool.false_or,
          Bool.true_and, Bool.true_and, hq, show p + n + i = 8 * q + (i + (n - (s.getlen - 8)) - 8) by omega,
          bitAt_byte bytes q (by omega)]
      · rw [decide_eq_false hin, Bool.false_and, Bool.or_false]
        congr 1
        exact decide_eq_decide.mpr (by omega)
    refine ⟨_, rfl, fun i (hi : i < 16 - n + (s.getlen - 8)) => ?_, fun i hi hb => ?_,
      show 16 - n + (s.getlen - 8) ≤ 16 by omega, q + 1, ?_, ?_,
      show p + n + (16 - n + (s.getlen - 8)) = 8 * (q + 1) by omega⟩
    · exact (hbits i (by omega)).trans (by rw [decide_eq_true hi, Bool.true_and])
    · have hb' := (hbits i hi).symm.trans hb
      rw [Bool.and_eq_true] at hb'
      exact hb'.2
    · dsimp only
      rw [hnext]
    · dsimp only
      rw [hnext]

/-! ## a token -/

/-- what both sides know of the codes of a file -/
structure Agreed (k : Codes) (t : Tables) (c : ℕ) : Prop where
  fits : Fitting (k.len c).toNat (k.code c)
  found : ∀ x : BitVec 16, (∀ i < (k.len c).toNat, x.getMsbD i = (k.code c).getMsbD (16 + i)) →
    findSymbol t x = some ((k.len c).toNat, c)

/-- the bits behind the code -/
def behindCode : Token → List Bool
  | .literal _ => []
  | .copy _ position => positionBits (UInt8.ofNat (position >>> 6).toNat) (UInt8.ofNat (position &&& 0x3F).toNat)

/-- copies are longer than `THRESHOLD` -/
def Token.Long : Token → Prop
  | .literal _ => True
  | .copy length _ => threshold < length

theorem ahead_codeBits {l : ℕ} {c : BitVec 32} :
    Ahead bytes p (codeBits l c) ↔ ∀ i < l, bitAt bytes (p + i) = c.getMsbD (16 + i) := by
  have hlen : (codeBits l c).length = l := by rw [codeBits, List.length_map, List.length_range]
  constructor
  · intro h i hi
    rw [h i (by rwa [hlen])]
    simp only [codeBits, List.getElem_map, List.getElem_range]
  · intro h i hi
    rw [h i (by rwa [hlen] at hi)]
    simp only [codeBits, List.getElem_map, List.getElem_range]

theorem doDecodeStep_token {k : Codes} (h : Reading bytes p s) {u : Token}
    (hu : Agreed k t u.symbol ∧ Putable (some k) u ∧ u.Long) (ha : Ahead bytes p (tokenBits (some k) u))
    (o : Unpacker) :
    ∃ s', doDecodeStep bytes t s o = some (u.length, s', writeToken u o) ∧
      Reading bytes (p + (tokenBits (some k) u).length) s' := by
  obtain ⟨hagreed, hput, hlong⟩ := hu
  have hfits := hagreed.fits.le
  have hsplit : tokenBits (some k) u = codeBits (k.len u.symbol).toNat (k.code u.symbol) ++ behindCode u := by
    cases u <;> rfl
  rw [hsplit] at ha ⊢
  obtain ⟨ha1, ha2⟩ := ahead_append.mp ha
  have hlen : (codeBits (k.len u.symbol).toNat (k.code u.symbol)).length = (k.len u.symbol).toNat := by
    rw [codeBits, List.length_map, List.length_range]
  rw [hlen] at ha2
  obtain ⟨s1, hs1, hr1⟩ := decodeSymbol_reading (t := t) h hfits fun x hx => hagreed.found x fun i hi => by
    rw [hx i (by omega)]
    exact ahead_codeBits.mp ha1 i hi
  rw [doDecodeStep, hs1, Option.map_some, List.length_append, hlen, ← Nat.add_assoc]
  cases u with
  | literal c =>
    refine ⟨s1, ?_, hr1⟩
    dsimp only
    rw [if_pos (show (Token.literal c).symbol < 256 from c.toNat_lt)]
    show some (1, s1, put (UInt8.ofNat c.toNat) o) = _
    rw [UInt8.ofNat_toNat]
    rfl
  | copy length position =>
    obtain ⟨-, hpos⟩ := hput.small length position rfl
    obtain ⟨hi, hj, hjoin⟩ := position_joined hpos
    have hthree : 2 < length := hlong
    obtain ⟨hq, hread⟩ := decodePosition_reading hr1 hi hj ha2
    refine ⟨(decodePosition bytes s1).2, ?_, ?_⟩
    · have hsym : ¬ (Token.copy length position).symbol < 256 := show ¬ 255 - 2 + length < 256 by omega
      have hj : (Token.copy length position).symbol - 255 + threshold = length :=
        show 255 - 2 + length - 255 + 2 = length by omega
      dsimp only
      rw [if_neg hsym, hq, hjoin, hj]
      rfl
    · exact hread

end

/-! ## the whole file -/

/-- what `SortLengths` does, on both sides alike -/
structure Sorts (sort : (ℕ → UInt8) → List ℕ → List ℕ) : Prop where
  perm : ∀ len l, (sort len l).Perm l
  sorted : ∀ len l, (sort len l).Pairwise fun a b => len a ≤ len b

/-- `DoEncode`: the lengths that `WriteCodes` gets, where codes are made, and the bytes behind them -/
def doEncode (sort : (ℕ → UInt8) → List ℕ → List ℕ) (fuel : ℕ) (text : ℕ → UInt8) (nodes : Nodes)
    (data : List UInt8) : Option (Option (ℕ → UInt8) × List UInt8) :=
  (firstPass fuel text nodes data).bind fun tokens =>
    let symbols := tokens.map Token.symbol
    let len := lengths symbols
    let codes := (assignCodes len (sort len (used symbols))).map fun code => Codes.mk len code
    (doSecondPass codes (runList tokens) (tmpFile tokens, ⟨[], 0, 0, 0⟩)).map fun r =>
      (codes.map Codes.len, (encodeEnd r.2).out)

/-- the end of `MakeShannonTrie`: `indicies` holds the symbols that have got a length -/
def readTables (sort : (ℕ → UInt8) → List ℕ → List ℕ) (len : ℕ → UInt8) (old : Tables) : Tables :=
  buildTables len (sort len ((List.range numChars).filter fun c => len c ≠ 0)) old

/-- what an earlier file has left of the reader, of the buffer and of the tables -/
structure Left where
  reader : Reader
  text : ℕ → UInt8
  tables : Tables

/-- `DecodeFile`, from behind the table on: the reader behind the file, and what is written -/
def decodeFile (sort : (ℕ → UInt8) → List ℕ → List ℕ) (bytes : ℕ → UInt8) (fuel next : ℕ) (old : Left)
    (textsize : ℕ) : Option (ℕ → UInt8) → Option (Reader × List UInt8)
  | none => noShannonDecode bytes fuel next old.reader old.text textsize
  | some len => doDecode bytes (readTables sort len old.tables) fuel next old.reader old.text textsize

theorem start_writing : Writing [] ⟨[], 0, 0, 0⟩ :=
  ⟨rfl, Nat.succ_pos 7, fun _ _ _ => BitVec.getMsbD_zero, rfl⟩

section
variable {data : List UInt8} {tokens : List Token} {a : ℕ}

theorem Describes.long {t : Token} (h : Describes data a t) : t.Long := by
  cases t with
  | literal c => exact trivial
  | copy length position => exact h.1

theorem Describes.symbol_lt {t : Token} (h : Describes data a t) : t.symbol < numChars := by
  cases t with
  | literal c =>
    have hc : c.toNat < 256 := c.toNat_lt
    show c.toNat < 314
    omega
  | copy length position =>
    have hlen : length ≤ 60 := h.2.1
    show 255 - 2 + length < 314
    omega

theorem Describes.small {t : Token} (h : Describes data a t) :
    ∀ length position, t = .copy length position → length < 64 ∧ position.toNat < 4096 := by
  intro length position ht
  obtain ⟨-, hlen, -, hpos, -⟩ := ht ▸ h
  have hlen' : length ≤ 60 := hlen
  omega

theorem Parses.describes : ∀ {a : ℕ}, Parses data a tokens → ∀ t ∈ tokens, ∃ b, Describes data b t := by
  induction tokens with
  | nil => exact fun _ t ht => absurd ht List.not_mem_nil
  | cons t tokens ih =>
    intro a h t' ht'
    rcases List.mem_cons.mp ht' with rfl | ht'
    · exact ⟨a, h.1⟩
    · exact ih h.2.2 t' ht'

/-- each token says a byte or more -/
theorem Parses.length_le : ∀ {a : ℕ}, Parses data a tokens → a + tokens.length ≤ data.length := by
  induction tokens with
  | nil => exact fun h => Nat.le_of_eq h
  | cons t tokens ih =>
    intro a h
    have hrest := ih h.2.2
    have hpos := h.1.length_pos
    rw [List.length_cons]
    omega

/-- the codes of the tokens, on both sides -/
theorem agreed_tokens {sort : (ℕ → UInt8) → List ℕ → List ℕ} (hs : Sorts sort) (hp : Parses data a tokens)
    {code : ℕ → BitVec 32}
    (hcode : assignCodes (lengths (tokens.map Token.symbol))
      (sort (lengths (tokens.map Token.symbol)) (used (tokens.map Token.symbol))) = some code) (old : Tables) :
    ∀ t ∈ tokens, Agreed ⟨lengths (tokens.map Token.symbol), code⟩
      (readTables sort (lengths (tokens.map Token.symbol)) old) t.symbol := by
  intro t ht
  have hmem : t.symbol ∈ tokens.map Token.symbol := List.mem_map_of_mem ht
  have hb : ∀ c ∈ tokens.map Token.symbol, c < numChars := by
    intro c hc
    obtain ⟨u, hu, rfl⟩ := List.mem_map.mp hc
    obtain ⟨b, hd⟩ := hp.describes u hu
    exact hd.symbol_lt
  have hused : (List.range numChars).filter (fun c => lengths (tokens.map Token.symbol) c ≠ 0) =
      used (tokens.map Token.symbol) := by
    rw [used, (collect_eq _).1]
    refine List.filter_congr fun c hc => decide_eq_decide.mpr ?_
    rw [lengths_ne hb (List.ne_nil_of_mem hmem), used, (collect_eq _).1, List.mem_filter, decide_eq_true_eq]
    exact and_iff_right hc
  obtain ⟨h1, h2⟩ := codes_found hb (hs.perm _ _) (hs.sorted _ _) hcode old hmem
  refine ⟨h1, fun x hx => ?_⟩
  rw [readTables, hused]
  exact h2 x hx

/-- behind the loop, the file is written and reading has come to the end of its bytes -/
theorem written_whole {bytes : ℕ → UInt8} {next : ℕ} {out : List UInt8} {e pad : List Bool} {s : Reader}
    (hout : byteBits out = e ++ pad) (hpad : pad.length < 8) (h : Reading bytes (8 * next + e.length) s) :
    (8 * next + e.length + 7) / 8 = next + out.length ∧ s.next - (readAhead s).length = next + out.length := by
  have hlen := congrArg List.length hout
  rw [length_byteBits, List.length_append] at hlen
  have hend : (8 * next + e.length + 7) / 8 = next + out.length := by omega
  exact ⟨hend, (readAhead_back h).trans hend⟩

/-- every file that is not empty is written again byte for byte, where the lengths are read back and both sides sort
alike, whatever stands behind its bytes in the archive and whatever earlier files have left on either side; reading
stands behind its bytes then, and `CompareCRC` takes the checksum of the bytes and no other one -/
theorem doEncode_decoded {sort : (ℕ → UInt8) → List ℕ → List ℕ} (hs : Sorts sort) (text : ℕ → UInt8) (nodes : Nodes)
    (old : Left) (hd : data ≠ []) {fuel : ℕ} (hf : data.length < fuel) :
    ∃ lens out, doEncode sort fuel text nodes data = some (lens, out) ∧
      ∀ (bytes : ℕ → UInt8) (next : ℕ), (∀ i, (h : i < out.length) → bytes (next + i) = out[i]) →
        ∃ s, decodeFile sort bytes fuel next old data.length lens = some (s, data) ∧
          s.next - (readAhead s).length = next + out.length ∧
          ∀ first ≤ next, ∀ crcvalue, compareCrc s (crcOf (stretch bytes first s.next)) crcvalue = true ↔
            crcvalue = getCrc (crcOf (stretch bytes first (next + out.length))) := by
  obtain ⟨e, w, he, henc⟩ := start_encoding text nodes hd
  obtain ⟨tokens, hloop, hp⟩ := encodeLoop_parses henc (show data.length < 0 + fuel by omega)
  have htokens : firstPass fuel text nodes data = some tokens := by rw [firstPass, he, Option.bind_some, hloop]
  have hlen := hp.length_le
  have hfuel : tokens.length < fuel := by omega
  have hsize : ¬ data.length = 0 := by rwa [List.length_eq_zero_iff]
  have hpass : ∀ codes, (∀ t ∈ tokens, Putable codes t) → ∃ w pad,
      doSecondPass codes (runList tokens) (tmpFile tokens, ⟨[], 0, 0, 0⟩) = some ([], w) ∧
      byteBits (encodeEnd w).out = tokens.flatMap (tokenBits codes) ++ pad ∧ pad.length < 8 := by
    intro codes hput
    obtain ⟨w, hpass, hw⟩ := doSecondPass_writing start_writing hput
    obtain ⟨pad, hpad, hshort⟩ := encodeEnd_writing hw
    exact ⟨w, pad, hpass, hpad, hshort⟩
  -- the same for both formats, once the loop has read the tokens
  have hend : ∀ {bytes : ℕ → UInt8} {next : ℕ} {out : List UInt8} {e pad : List Bool} {s : Reader},
      byteBits out = e ++ pad → pad.length < 8 → Reading bytes (8 * next + e.length) s →
      s.next - (readAhead s).length = next + out.length ∧
        ∀ first ≤ next, ∀ crcvalue, compareCrc s (crcOf (stretch bytes first s.next)) crcvalue = true ↔
          crcvalue = getCrc (crcOf (stretch bytes first (next + out.length))) := by
    intro bytes next out e pad s hout hpad hread
    obtain ⟨hplace, hback⟩ := written_whole hout hpad hread
    refine ⟨hback, fun first hfirst crcvalue => ?_⟩
    rw [compareCrc_stretch hread (show 8 * first ≤ 8 * next + e.length by omega), hplace]
  rw [doEncode, htokens, Option.bind_some]
  dsimp only
  cases hcode : assignCodes (lengths (tokens.map Token.symbol))
      (sort (lengths (tokens.map Token.symbol)) (used (tokens.map Token.symbol))) with
  | none =>
    have hput : ∀ t ∈ tokens, Putable none t := fun t ht => by
      obtain ⟨b, hd⟩ := hp.describes t ht
      exact ⟨fun k hk => (Option.some_ne_none k hk.symm).elim, hd.small⟩
    obtain ⟨w, pad, hw, hpad, hshort⟩ := hpass none hput
    rw [Option.map_none, hw]
    refine ⟨none, (encodeEnd w).out, rfl, fun bytes next hb => ?_⟩
    have ha := ahead_byteBits hb
    rw [hpad] at ha
    obtain ⟨s, o, hloop, hdata, hread⟩ := decodeLoop_tokens (fun hs ht ha o => (noShannonStep_token hs ht ha o).imp
      fun s' h => ⟨congrArg some h.1, h.2⟩) tokens (startReader_reading bytes next)
      (startUnpack_unpacking data old.text) hp hput (ahead_append.mp ha).1 hfuel
    refine ⟨s, ?_, hend hpad hshort hread⟩
    rw [decodeFile, noShannonDecode, if_neg hsize, hloop, Option.map_some, hdata]
  | some code =>
    have hagreed := agreed_tokens hs hp hcode old.tables
    have hput : ∀ t ∈ tokens, Putable (some ⟨lengths (tokens.map Token.symbol), code⟩) t := fun t ht => by
      obtain ⟨b, hd⟩ := hp.describes t ht
      exact ⟨fun k hk => Option.some.inj hk ▸ (hagreed t ht).fits, hd.small⟩
    have hgood : ∀ t ∈ tokens, Agreed ⟨lengths (tokens.map Token.symbol), code⟩
        (readTables sort (lengths (tokens.map Token.symbol)) old.tables) t.symbol ∧
        Putable (some ⟨lengths (tokens.map Token.symbol), code⟩) t ∧ t.Long := fun t ht => by
      obtain ⟨b, hd⟩ := hp.describes t ht
      exact ⟨hagreed t ht, hput t ht, hd.long⟩
    obtain ⟨w, pad, hw, hpad, hshort⟩ := hpass _ hput
    rw [Option.map_some, hw]
    refine ⟨some (lengths (tokens.map Token.symbol)), (encodeEnd w).out, rfl, fun bytes next hb => ?_⟩
    have ha := ahead_byteBits hb
    rw [hpad] at ha
    obtain ⟨s, o, hloop, hdata, hread⟩ := decodeLoop_tokens (fun hs hu ha o => doDecodeStep_token hs hu ha o) tokens
      (startReader_reading bytes next) (startUnpack_unpacking data old.text) hp hgood (ahead_append.mp ha).1 hfuel
    refine ⟨s, ?_, hend hpad hshort hread⟩
    rw [decodeFile, doDecode, if_neg hsize, hloop, Option.map_some, hdata]

end

/-- `SortLengths` by merging -/
def byLength (len : ℕ → UInt8) (l : List ℕ) : List ℕ := l.mergeSort fun a b => len a ≤ len b

theorem byLength_sorts : Sorts byLength := by
  refine ⟨fun len l => List.mergeSort_perm _ _, fun len l => ?_⟩
  refine (List.pairwise_mergeSort (fun a b c hab hbc => ?_) (fun a b => ?_) l).imp fun h => of_decide_eq_true h
  · exact decide_eq_true (UInt8.le_trans (of_decide_eq_true hab) (of_decide_eq_true hbc))
  · rw [Bool.or_eq_true, decide_eq_true_eq, decide_eq_true_eq]
    exact UInt8.le_total _ _

/-- four equal bytes, and buffers that are empty -/
theorem doEncode_decoded_four : ∃ lens out,
    doEncode byLength 5 (fun _ => 0) ⟨⟨fun _ => 0, fun _ => 0, fun _ => 0⟩, 0, 0⟩ [97, 97, 97, 97] =
      some (lens, out) ∧
    ∀ (bytes : ℕ → UInt8) (next : ℕ), (∀ i, (h : i < out.length) → bytes (next + i) = out[i]) →
      ∃ s, decodeFile byLength bytes 5 next ⟨⟨0, 0, 0, 0⟩, fun _ => 0, 0, fun _ => 0, fun _ => 0, fun _ => 0⟩ 4 lens =
          some (s, [97, 97, 97, 97]) ∧
        s.next - (readAhead s).length = next + out.length ∧
        ∀ first ≤ next, ∀ crcvalue, compareCrc s (crcOf (stretch bytes first s.next)) crcvalue = true ↔
          crcvalue = getCrc (crcOf (stretch bytes first (next + out.length))) :=
  doEncode_decoded byLength_sorts _ _ _ (by decide) (by decide)

end Wpack
