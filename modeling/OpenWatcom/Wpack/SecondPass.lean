import OpenWatcom.Wpack.Tokens
import OpenWatcom.Wpack.PutBits

/-!
# The second pass over a file: `encode.c`

* `tmpFile`, `runList`     what the first pass keeps of its tokens
* `doSecondPass`     `DoSecondPass`: their bits, with the codes or without
* `runList_expand`     the runs tell which tokens are literals
* `doSecondPass_writing`     the bits of all tokens are put, one after the other
-/

namespace Wpack

open BitStreams

/-! ## what is kept -/

def Token.isLiteral : Token → Bool
  | .literal _ => true
  | .copy _ _ => false

/-- the bytes of a token in the temporary file -/
def Token.tmp : Token → List UInt8
  | .literal c => [c]
  | .copy length position =>
    [UInt8.ofNat length, UInt8.ofNat (position >>> 6).toNat, UInt8.ofNat (position &&& 0x3F).toNat]

def tmpFile (tokens : List Token) : List UInt8 := tokens.flatMap Token.tmp

/-- `WasLiteral`, `CurrRunLen` and the run list -/
structure Runs where
  wasLiteral : Bool
  currRunLen : UInt8
  runs : List UInt8

def addRunEntry (r : Runs) : Runs :=
  { r with
    currRunLen := 0
    runs := r.runs ++ [if r.wasLiteral then r.currRunLen else r.currRunLen ||| 0x80] }

/-- `WriteTmpByte`, its first part -/
def addRun (inliteral : Bool) (r : Runs) : Runs :=
  let r := if inliteral ≠ r.wasLiteral ∨ 0x7F ≤ r.currRunLen then { addRunEntry r with wasLiteral := inliteral } else r
  { r with currRunLen := r.currRunLen + 1 }

def runList (tokens : List Token) : List UInt8 :=
  (addRunEntry (tokens.foldl (fun r t => addRun t.isLiteral r) ⟨true, 0, []⟩)).runs

/-! ## the pass -/

/-- `len` and `code` -/
structure Codes where
  len : ℕ → UInt8
  code : ℕ → BitVec 32

/-- `none` is a pass without codes -/
def putSymbol (codes : Option Codes) (inliteral : Bool) (c : UInt8) (w : Writer) : Writer :=
  match codes with
  | some k =>
    let c := if inliteral then c.toNat else 255 - threshold + c.toNat
    putcode (k.len c).toNat (k.code c) w
  | none =>
    if inliteral then putcode 9 (BitVec.ofNat 32 c.toNat <<< 7) w
    else putcode 7 (BitVec.ofNat 32 (c.toNat + 0x40) <<< 9) w

/-- one turn of the inner loop; `none` is a read behind the end of the temporary file -/
def passOne (codes : Option Codes) (inliteral : Bool) (r : List UInt8 × Writer) : Option (List UInt8 × Writer) :=
  match r.1 with
  | [] => none
  | c :: tmp =>
    let w := putSymbol codes inliteral c r.2
    if inliteral then some (tmp, w)
    else
      match tmp with
      | i :: j :: tmp => some (tmp, encodePosition i j w)
      | _ => none

def passRun (codes : Option Codes) (inliteral : Bool) : ℕ → List UInt8 × Writer → Option (List UInt8 × Writer)
  | 0, r => some r
  | index + 1, r => (passOne codes inliteral r).bind (passRun codes inliteral index)

def doSecondPass (codes : Option Codes) : List UInt8 → List UInt8 × Writer → Option (List UInt8 × Writer)
  | [], r => some r
  | data :: runs, r =>
    (passRun codes (data &&& 0x80 = 0) (data &&& 0x7F).toNat r).bind (doSecondPass codes runs)

/-! ## the runs -/

/-- what a byte of the run list says -/
def expand (data : UInt8) : List Bool := List.replicate (data &&& 0x7F).toNat (data &&& 0x80 = 0)

theorem expand_entry (b : Bool) : ∀ n < 128,
    expand (if b then UInt8.ofNat n else UInt8.ofNat n ||| 0x80) = List.replicate n b := by
  cases b <;> decide +kernel

/-- the runs and the one that is not added yet -/
structure Run (kinds : List Bool) (r : Runs) : Prop where
  eq : r.runs.flatMap expand ++ List.replicate r.currRunLen.toNat r.wasLiteral = kinds
  le : r.currRunLen.toNat ≤ 127

theorem addRunEntry_expand {kinds : List Bool} {r : Runs} (h : Run kinds r) :
    (addRunEntry r).runs.flatMap expand = kinds := by
  have he := expand_entry r.wasLiteral r.currRunLen.toNat (Nat.lt_succ_of_le h.le)
  rw [UInt8.ofNat_toNat] at he
  show (r.runs ++ [_]).flatMap expand = kinds
  rw [List.flatMap_append, List.flatMap_cons, he]
  show _ ++ (_ ++ []) = kinds
  rw [List.append_nil, h.eq]

theorem addRun_run {kinds : List Bool} {r : Runs} (h : Run kinds r) (b : Bool) : Run (kinds ++ [b]) (addRun b r) := by
  rw [addRun]
  by_cases hc : b ≠ r.wasLiteral ∨ 0x7F ≤ r.currRunLen
  · rw [if_pos hc]
    refine ⟨?_, show ((0 : UInt8) + 1).toNat ≤ 127 by decide⟩
    show (addRunEntry r).runs.flatMap expand ++ [b] = _
    rw [addRunEntry_expand h]
  · obtain ⟨hb, hlt⟩ := not_or.mp hc
    have hlen : r.currRunLen.toNat < 127 := UInt8.lt_iff_toNat_lt.mp (UInt8.not_le.mp hlt)
    have hsucc : (r.currRunLen + 1).toNat = r.currRunLen.toNat + 1 := by
      rw [UInt8.toNat_add, show (1 : UInt8).toNat = 1 from rfl]
      omega
    rw [if_neg hc]
    refine ⟨?_, ?_⟩
    · show r.runs.flatMap expand ++ List.replicate (r.currRunLen + 1).toNat r.wasLiteral = _
      rw [hsucc, List.replicate_succ', ← List.append_assoc, h.eq, not_not.mp hb]
    · show (r.currRunLen + 1).toNat ≤ 127
      omega

theorem runList_expand (tokens : List Token) : (runList tokens).flatMap expand = tokens.map Token.isLiteral := by
  have hgo : ∀ (ts : List Token) (kinds : List Bool) (r : Runs), Run kinds r →
      Run (kinds ++ ts.map Token.isLiteral) (ts.foldl (fun r t => addRun t.isLiteral r) r) := by
    intro ts
    induction ts with
    | nil =>
      intro kinds r h
      rw [List.map_nil, List.append_nil]
      exact h
    | cons t ts ih =>
      intro kinds r h
      have := ih _ _ (addRun_run h t.isLiteral)
      rwa [List.append_assoc] at this
  exact addRunEntry_expand (hgo tokens [] ⟨true, 0, []⟩ ⟨rfl, Nat.zero_le _⟩)

/-! ## the bits -/

/-- the place of a token in the tables of codes -/
def Token.symbol : Token → ℕ
  | .literal c => c.toNat
  | .copy length _ => 255 - threshold + length

def tokenBits (codes : Option Codes) (t : Token) : List Bool :=
  (match codes, t with
    | some k, t => codeBits (k.len t.symbol).toNat (k.code t.symbol)
    | none, .literal c => codeBits 9 (BitVec.ofNat 32 c.toNat <<< 7)
    | none, .copy length _ => codeBits 7 (BitVec.ofNat 32 (length + 0x40) <<< 9)) ++
  match t with
  | .literal _ => []
  | .copy _ position => positionBits (UInt8.ofNat (position >>> 6).toNat) (UInt8.ofNat (position &&& 0x3F).toNat)

/-- a token that the pass can put -/
structure Putable (codes : Option Codes) (t : Token) : Prop where
  fits : ∀ k, codes = some k → Fitting (k.len t.symbol).toNat (k.code t.symbol)
  small : ∀ length position, t = .copy length position → length < 64 ∧ position.toNat < 4096

section
variable {codes : Option Codes} {e : List Bool} {w : Writer}

theorem fitting_literal : ∀ c < 256, (9 ≤ 16 ∧ (∀ k < 16, (BitVec.ofNat 32 c <<< 7).getMsbD k = false) ∧
    ∀ k < 16, 9 ≤ k → (BitVec.ofNat 32 c <<< 7).getMsbD (16 + k) = false) := by
  decide +kernel

theorem fitting_copy : ∀ c < 64, (7 ≤ 16 ∧ (∀ k < 16, (BitVec.ofNat 32 (c + 0x40) <<< 9).getMsbD k = false) ∧
    ∀ k < 16, 7 ≤ k → (BitVec.ofNat 32 (c + 0x40) <<< 9).getMsbD (16 + k) = false) := by
  decide +kernel

/-- the two bytes of a position -/
theorem position_joined {position : UInt32} (h : position.toNat < 4096) :
    (UInt8.ofNat (position >>> 6).toNat).toNat < 64 ∧ (UInt8.ofNat (position &&& 0x3F).toNat).toNat < 64 ∧
      64 * (UInt8.ofNat (position >>> 6).toNat).toNat + (UInt8.ofNat (position &&& 0x3F).toNat).toNat =
        position.toNat := by
  rw [UInt8.toNat_ofNat', UInt8.toNat_ofNat', UInt32.toNat_shiftRight, show (6 : UInt32).toNat % 32 = 6 from rfl,
    Nat.shiftRight_eq_div_pow, UInt32.toNat_and, show (0x3F : UInt32).toNat = 2 ^ 6 - 1 from rfl,
    Nat.and_two_pow_sub_one_eq_mod]
  omega

theorem passOne_writing (hw : Writing e w) {t : Token} (ht : Putable codes t) (rest : List UInt8) :
    ∃ w', passOne codes t.isLiteral (t.tmp ++ rest, w) = some (rest, w') ∧ Writing (e ++ tokenBits codes t) w' := by
  cases t with
  | literal c =>
    refine ⟨_, rfl, ?_⟩
    cases codes with
    | some k =>
      rw [tokenBits, List.append_nil]
      exact putcode_writing hw (ht.fits k rfl)
    | none =>
      rw [tokenBits, List.append_nil]
      exact putcode_writing hw (fitting_of (fitting_literal _ c.toNat_lt))
  | copy length position =>
    obtain ⟨hlen, hpos⟩ := ht.small length position rfl
    have hl : (UInt8.ofNat length).toNat = length := by
      rw [UInt8.toNat_ofNat', Nat.mod_eq_of_lt (by omega)]
    obtain ⟨hhi, hlo, -⟩ := position_joined hpos
    have hput : Writing (e ++ match codes with
        | some k => codeBits (k.len (Token.copy length position).symbol).toNat (k.code (Token.copy length position).symbol)
        | none => codeBits 7 (BitVec.ofNat 32 (length + 0x40) <<< 9))
        (putSymbol codes false (UInt8.ofNat length) w) := by
      cases codes with
      | some k =>
        have hp := putcode_writing hw (ht.fits k rfl)
        rw [putSymbol]
        dsimp only
        rw [if_neg (by decide), hl]
        exact hp
      | none =>
        have hp := putcode_writing hw (fitting_of (fitting_copy length hlen))
        rw [putSymbol]
        dsimp only
        rw [if_neg (by decide), hl]
        exact hp
    refine ⟨_, rfl, ?_⟩
    have hfull := encodePosition_writing hput hhi hlo
    rw [List.append_assoc] at hfull
    cases codes with
    | some k => exact hfull
    | none => exact hfull

/-- one turn for each token -/
def passAll (codes : Option Codes) (kinds : List Bool) (r : List UInt8 × Writer) : Option (List UInt8 × Writer) :=
  kinds.foldlM (fun r b => passOne codes b r) r

theorem passRun_eq (b : Bool) (n : ℕ) (r : List UInt8 × Writer) :
    passRun codes b n r = passAll codes (List.replicate n b) r := by
  induction n generalizing r with
  | zero => rfl
  | succ n ih =>
    rw [passRun, List.replicate_succ, passAll, List.foldlM_cons]
    exact congrArg _ (funext ih)

theorem doSecondPass_eq (runs : List UInt8) (r : List UInt8 × Writer) :
    doSecondPass codes runs r = passAll codes (runs.flatMap expand) r := by
  induction runs generalizing r with
  | nil => rfl
  | cons data runs ih =>
    rw [doSecondPass, List.flatMap_cons, passAll, List.foldlM_append, passRun_eq]
    exact congrArg _ (funext ih)

theorem passAll_writing (tokens : List Token) : ∀ {e : List Bool} {w : Writer}, Writing e w →
    (∀ t ∈ tokens, Putable codes t) →
    ∃ w', passAll codes (tokens.map Token.isLiteral) (tmpFile tokens, w) = some ([], w') ∧
      Writing (e ++ tokens.flatMap (tokenBits codes)) w' := by
  induction tokens with
  | nil =>
    intro e w hw _
    refine ⟨w, rfl, ?_⟩
    rw [List.flatMap_nil, List.append_nil]
    exact hw
  | cons t tokens ih =>
    intro e w hw ht
    obtain ⟨w1, h1, hw1⟩ := passOne_writing hw (ht t List.mem_cons_self) (tmpFile tokens)
    obtain ⟨w2, h2, hw2⟩ := ih hw1 fun t' ht' => ht t' (List.mem_cons_of_mem t ht')
    refine ⟨w2, ?_, ?_⟩
    · rw [passAll, List.map_cons, List.foldlM_cons, tmpFile, List.flatMap_cons, ← tmpFile, h1]
      exact h2
    · rw [List.flatMap_cons, ← List.append_assoc]
      exact hw2

theorem doSecondPass_writing (hw : Writing e w) {tokens : List Token} (ht : ∀ t ∈ tokens, Putable codes t) :
    ∃ w', doSecondPass codes (runList tokens) (tmpFile tokens, w) = some ([], w') ∧
      Writing (e ++ tokens.flatMap (tokenBits codes)) w' := by
  rw [doSecondPass_eq, runList_expand]
  exact passAll_writing tokens hw ht

end

end Wpack
