import Mathlib

/-!
# `#include`: `CInclude` of `cmac2.c`

* `Token`, `Input`, `ppNextToken`     what the scanner hands over;
* `strncat`     appends to the buffer of 82 characters, or leaves it;
* `headerLoop`, `cInclude`     the loop up to the closing `>`, and the directive;
* `headerTexts`, `closed`     the texts that the loop appends, and whether it comes to a `>`;
* `headerLoop_eq`     what the loop ends with, from the lengths of the texts;
* `include_header_iff`     when the buffer is kept and the name is what the tokens spell.

The flags of the precompiled headers are left out, and so is the token that is read behind the
directive.
-/

namespace PpInclude

/-- the tokens that `CInclude` tells apart -/
inductive Kind where
  | string | lt | gt | null | eof | other
deriving DecidableEq, Repr

/-- what `PPNextToken` leaves: `CurToken`, `Buffer`, and whether `MacroPtr` is `NULL` -/
structure Token where
  kind : Kind
  buffer : List Char
  macroDone : Bool
deriving DecidableEq

/-- the tokens to come; behind them is `T_EOF`, which does not set `Buffer` -/
structure Input where
  tokens : List Token
  eofBuffer : List Char

def ppNextToken (inp : Input) : Token × Input :=
  match inp.tokens with
  | [] => (⟨.eof, inp.eofBuffer, true⟩, inp)
  | t :: rest => (t, { inp with tokens := rest })

inductive FileType where
  | header | library
deriving DecidableEq, Repr

/-- the calls that a directive ends with; the error is `ERR_INVALID_INCLUDE` -/
inductive Call where
  | openSrcFile (name : List Char) (type : FileType)
  | prtfFilenameErr (name : List Char) (type : FileType)
  | cErr1
deriving DecidableEq

/-- `sizeof( buf )` -/
def bufSize : Nat := 82

/-- `strncat( buf, text, sizeof( buf ) - 2 )`; `none` when it writes behind the buffer -/
def strncat (buf text : List Char) : Option (List Char) :=
  let r := buf ++ text.take (bufSize - 2)
  if r.length < bufSize then some r else none

/-- how the loop of a header name ends -/
inductive Ended where
  | overrun
  | found (name : List Char)
  | invalid
deriving DecidableEq

section
variable (inMacro : Bool) (eofBuffer : List Char)

/-- the loop gives up behind this token -/
def Token.stops (t : Token) : Bool := (inMacro ∧ t.macroDone) ∨ t.kind = .null ∨ t.kind = .eof

/-- the loop of a header name; at the end of the tokens it meets `T_EOF` -/
def headerLoop : List Char → List Token → Ended
  | buf, [] =>
    match strncat buf eofBuffer with
    | none => .overrun
    | some _ => .invalid
  | buf, t :: rest =>
    if t.kind = .gt then .found buf
    else
      match strncat buf t.buffer with
      | none => .overrun
      | some buf => if t.stops inMacro then .invalid else headerLoop buf rest

/-- `OpenSrcFile`, with the message when there is no such file -/
def openOrReport (openSrcFile : List Char → FileType → Bool) (name : List Char)
    (type : FileType) : List Call :=
  if openSrcFile name type then [.openSrcFile name type]
  else [.openSrcFile name type, .prtfFilenameErr name type]

/-- `CInclude`; `none` when the buffer is overrun -/
def cInclude (openSrcFile : List Char → FileType → Bool) (inp : Input) : Option (List Call) :=
  let (t, inp) := ppNextToken inp
  match t.kind with
  | .string => some (openOrReport openSrcFile t.buffer .header)
  | .lt =>
    match headerLoop inMacro inp.eofBuffer [] inp.tokens with
    | .overrun => none
    | .found name => some (openOrReport openSrcFile name .library)
    | .invalid => some [.cErr1]
  | _ => some [.cErr1]

/-! ## the texts of a header name -/

/-- the texts that the loop appends -/
def headerTexts : List Token → List (List Char)
  | [] => [eofBuffer]
  | t :: rest =>
    if t.kind = .gt then []
    else if t.stops inMacro then [t.buffer]
    else t.buffer :: headerTexts rest

/-- the loop comes to a `>` -/
def closed : List Token → Bool
  | [] => false
  | t :: rest =>
    if t.kind = .gt then true
    else if t.stops inMacro then false
    else closed rest

end

/-- the characters that the loop appends -/
def cut (texts : List (List Char)) : List Char := (texts.map (·.take (bufSize - 2))).flatten

theorem cut_nil : cut [] = [] := rfl

theorem cut_cons (t : List Char) (texts : List (List Char)) :
    cut (t :: texts) = t.take (bufSize - 2) ++ cut texts := rfl

theorem cut_length (texts : List (List Char)) :
    (cut texts).length = (texts.map fun t => min (bufSize - 2) t.length).sum := by
  induction texts with
  | nil => rfl
  | cons t texts ih =>
    rw [cut_cons, List.length_append, List.length_take, ih, List.map_cons, List.sum_cons]

theorem cut_length_le (texts : List (List Char)) : (cut texts).length ≤ texts.flatten.length := by
  induction texts with
  | nil => exact le_refl 0
  | cons t texts ih =>
    rw [cut_cons, List.length_append, List.length_take, List.flatten_cons, List.length_append]
    omega

/-- nothing is cut off exactly when every text is short enough -/
theorem cut_eq_iff (texts : List (List Char)) :
    cut texts = texts.flatten ↔ ∀ t ∈ texts, t.length ≤ bufSize - 2 := by
  induction texts with
  | nil => simp [cut_nil]
  | cons t texts ih =>
    rw [List.forall_mem_cons, ← ih, cut_cons, List.flatten_cons]
    constructor
    · intro h
      have hl := congrArg List.length h
      have hle := cut_length_le texts
      rw [List.length_append, List.length_append, List.length_take] at hl
      have ht : t.length ≤ bufSize - 2 := by omega
      rw [List.take_of_length_le ht] at h
      exact ⟨ht, List.append_cancel_left h⟩
    · rintro ⟨ht, h⟩
      rw [List.take_of_length_le ht, h]

section
variable (inMacro : Bool) (eofBuffer : List Char)

theorem strncat_eq (buf text : List Char) : strncat buf text =
    if (buf ++ text.take (bufSize - 2)).length < bufSize then
      some (buf ++ text.take (bufSize - 2))
    else none := rfl

/-- what the loop ends with -/
theorem headerLoop_eq (tokens : List Token) : ∀ {buf : List Char}, buf.length < bufSize →
    headerLoop inMacro eofBuffer buf tokens =
      if buf.length + (cut (headerTexts inMacro eofBuffer tokens)).length < bufSize then
        if closed inMacro tokens then
          .found (buf ++ cut (headerTexts inMacro eofBuffer tokens))
        else .invalid
      else .overrun := by
  induction tokens with
  | nil =>
    intro buf hbuf
    unfold headerLoop headerTexts closed
    rw [strncat_eq, cut_cons, cut_nil, List.append_nil, List.length_append]
    by_cases h : buf.length + (eofBuffer.take (bufSize - 2)).length < bufSize
    · rw [if_pos h, if_pos h]
      rfl
    · rw [if_neg h, if_neg h]
  | cons t rest ih =>
    intro buf hbuf
    unfold headerLoop headerTexts closed
    by_cases hgt : t.kind = .gt
    · rw [if_pos hgt, if_pos hgt, if_pos hgt, cut_nil, List.append_nil]
      exact (if_pos hbuf).symm
    · rw [if_neg hgt, if_neg hgt, if_neg hgt, strncat_eq, List.length_append]
      by_cases hs : t.stops inMacro = true
      · rw [if_pos hs, if_pos hs, cut_cons, cut_nil, List.append_nil]
        by_cases h : buf.length + (t.buffer.take (bufSize - 2)).length < bufSize
        · rw [if_pos h, if_pos h]
          exact if_pos hs
        · rw [if_neg h, if_neg h]
      · rw [if_neg hs, if_neg hs, cut_cons, List.length_append, ← Nat.add_assoc]
        by_cases h : buf.length + (t.buffer.take (bufSize - 2)).length < bufSize
        · rw [if_pos h]
          show (if t.stops inMacro = true then _ else _) = _
          rw [if_neg hs, ih (by rwa [List.length_append]), List.length_append, List.append_assoc]
        · rw [if_neg h, if_neg (by omega)]

end

/-! ## the directive -/

section
variable (inMacro : Bool) (openSrcFile : List Char → FileType → Bool) (inp : Input)

/-- the texts that the directive appends to its buffer -/
def spelled : List (List Char) :=
  if (ppNextToken inp).1.kind = .lt then
    headerTexts inMacro inp.eofBuffer (ppNextToken inp).2.tokens
  else []

/-- the directive has the form `<...>` -/
def wellClosed : Bool :=
  (ppNextToken inp).1.kind = .lt ∧ closed inMacro (ppNextToken inp).2.tokens

/-- the buffer is kept, and a name that fits is what the tokens spell -/
def HeaderRight : Prop :=
  ∃ calls, cInclude inMacro openSrcFile inp = some calls ∧
    ∀ name, Call.openSrcFile name .library ∈ calls →
      (spelled inMacro inp).flatten.length < bufSize → name = (spelled inMacro inp).flatten

/-- at most 81 characters when no more than 80 of a token count, and no token of 81 characters that
is the whole name -/
def TextsFit : Prop :=
  ((spelled inMacro inp).map fun t => min (bufSize - 2) t.length).sum < bufSize ∧
    (wellClosed inMacro inp → (spelled inMacro inp).flatten.length < bufSize →
      ∀ t ∈ spelled inMacro inp, t.length ≤ bufSize - 2)

theorem mem_openOrReport {name name' : List Char} {type type' : FileType} :
    Call.openSrcFile name type ∈ openOrReport openSrcFile name' type' ↔
      name = name' ∧ type = type' := by
  unfold openOrReport
  split <;> simp

/-- a directive that is not of the form `<...>` appends nothing -/
theorem cInclude_other (h : (ppNextToken inp).1.kind ≠ .lt) :
    ∃ calls, cInclude inMacro openSrcFile inp = some calls ∧
      ∀ name, Call.openSrcFile name .library ∉ calls := by
  unfold cInclude
  generalize ppNextToken inp = p at h ⊢
  obtain ⟨t, inp'⟩ := p
  cases hk : t.kind with
  | lt => exact absurd hk h
  | string =>
    refine ⟨openOrReport openSrcFile t.buffer .header, by simp only [hk], fun name hn => ?_⟩
    rw [mem_openOrReport] at hn
    cases hn.2
  | _ => exact ⟨[.cErr1], by simp only [hk], fun name hn => by simp at hn⟩

/-- the form `<...>` -/
theorem cInclude_lt (h : (ppNextToken inp).1.kind = .lt) :
    cInclude inMacro openSrcFile inp =
      if (cut (spelled inMacro inp)).length < bufSize then
        if wellClosed inMacro inp then
          some (openOrReport openSrcFile (cut (spelled inMacro inp)) .library)
        else some [.cErr1]
      else none := by
  have he : (ppNextToken inp).2.eofBuffer = inp.eofBuffer := by
    unfold ppNextToken
    split <;> rfl
  have hs : spelled inMacro inp =
      headerTexts inMacro inp.eofBuffer (ppNextToken inp).2.tokens := if_pos h
  have hw : wellClosed inMacro inp = closed inMacro (ppNextToken inp).2.tokens := by
    simp only [wellClosed, h, true_and, Bool.decide_eq_true]
  rw [hs, hw]
  unfold cInclude
  simp only [h, he]
  rw [headerLoop_eq inMacro _ _ (by decide : ([] : List Char).length < bufSize), List.length_nil,
    Nat.zero_add, List.nil_append]
  split_ifs <;> rfl

theorem include_header_iff : HeaderRight inMacro openSrcFile inp ↔ TextsFit inMacro inp := by
  unfold HeaderRight TextsFit
  rw [← cut_length]
  by_cases h : (ppNextToken inp).1.kind = .lt
  · rw [cInclude_lt inMacro openSrcFile inp h]
    by_cases hfit : (cut (spelled inMacro inp)).length < bufSize
    · rw [if_pos hfit, ← cut_eq_iff]
      by_cases hw : wellClosed inMacro inp = true
      · rw [if_pos hw]
        constructor
        · rintro ⟨calls, hc, hname⟩
          obtain rfl := Option.some.inj hc
          exact ⟨hfit, fun _ hl =>
            hname _ ((mem_openOrReport openSrcFile).mpr ⟨rfl, rfl⟩) hl⟩
        · rintro ⟨-, hcut⟩
          refine ⟨_, rfl, fun name hn hl => ?_⟩
          rw [((mem_openOrReport openSrcFile).mp hn).1]
          exact hcut hw hl
      · rw [if_neg hw]
        exact ⟨fun _ => ⟨hfit, fun hw' => absurd hw' hw⟩,
          fun _ => ⟨_, rfl, fun name hn => by simp at hn⟩⟩
    · rw [if_neg hfit]
      constructor
      · rintro ⟨calls, hc, -⟩
        cases hc
      · exact fun ⟨hl, _⟩ => absurd hl hfit
  · obtain ⟨calls, hc, hn⟩ := cInclude_other inMacro openSrcFile inp h
    have hs : spelled inMacro inp = [] := if_neg h
    rw [hs]
    exact ⟨fun _ => ⟨by decide, fun _ _ t ht => by cases ht⟩,
      fun _ => ⟨calls, hc, fun name hm => absurd hm (hn name)⟩⟩

end

/-- the tokens of `<a...a.hpp>` with 78 letters in front of the dot: 82 characters -/
def longHeader : Input :=
  ⟨[⟨.lt, ['<'], true⟩, ⟨.other, List.replicate 78 'a', true⟩, ⟨.other, ['.'], true⟩,
    ⟨.other, ['h', 'p', 'p'], true⟩, ⟨.gt, ['>'], true⟩], []⟩

theorem longHeader_overruns : cInclude false (fun _ _ => true) longHeader = none := by
  decide +kernel

theorem longHeader_wrong : ¬ HeaderRight false (fun _ _ => true) longHeader := by
  rintro ⟨calls, h, -⟩
  rw [longHeader_overruns] at h
  cases h

end PpInclude
