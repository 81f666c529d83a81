import Mathlib

/-!
# The `#` operator: `cmac1.c`, and the scanner behind it

* `Token`     a preprocessing token of a macro argument, with its spelling;
* `collectParm`     the loop of `CollectParms` for one argument;
* `buildString`, `macroSharp`     the token that `#` makes of an argument;
* `scanString`, `removeEscapes`     a string literal read up to its quote, and its value;
* `spelling`     the argument as it is written, with its white space brought to single blanks;
* `stringized_value`     the token is a string literal whose value is the spelling.

An argument is the list of its tokens; the end of the list is `T_NULL`. Characters are single bytes.
-/

namespace Stringize

inductive TextKind where
  | constant | ppnumber | id | unexpandableId | badToken
deriving DecidableEq, Repr

/-- a token as the scanner gives it: `text` and `string` have their `Buffer`, an `op` has its `TokenString`
and the way it was written, and `missingQuote` is a `T_BAD_TOKEN` with `ERR_MISSING_QUOTE` -/
inductive Token where
  | null | eof | whiteSpace
  | leftParen | rightParen | comma
  | string (wide : Bool) (buffer : List Char)
  | text (kind : TextKind) (buffer : List Char)
  | missingQuote
  | badChar (c : Char)
  | op (tokenString : List Char) (written : List Char)
deriving DecidableEq, Repr

def Token.isWhite : Token → Bool
  | .whiteSpace => true
  | _ => false

/-! ## the argument -/

/-- `TokenBufRemoveWSToken`, at the end of an argument -/
def saveParm (prev : Token) (buf : List Token) : List Token :=
  if prev.isWhite then buf.dropLast else buf

/-- the loop of `CollectParms` for one argument: what it stores, the token that ends it, and what follows;
`lastVar` says that this is the variable parameter -/
def collectParm (lastVar : Bool) : Nat → Token → List Token → List Token →
    Option (List Token × Token × List Token)
  | _, _, _, [] => none
  | bracket, prev, buf, token :: rest =>
    if token.isWhite ∧ buf = [] then collectParm lastVar bracket prev buf rest
    else
      match token with
      | .eof => none
      | .null => none
      | .leftParen => collectParm lastVar (bracket + 1) token (buf ++ [token]) rest
      | .rightParen =>
        if bracket = 0 then some (saveParm prev buf, token, rest)
        else collectParm lastVar (bracket - 1) token (buf ++ [token]) rest
      | .missingQuote =>
        if bracket = 0 then some (saveParm prev buf, token, rest)
        else collectParm lastVar (bracket - 1) .rightParen (buf ++ [.rightParen]) rest
      | .comma =>
        if bracket = 0 ∧ lastVar = false then some (saveParm prev buf, token, rest)
        else collectParm lastVar bracket token (buf ++ [token]) rest
      | .whiteSpace =>
        collectParm lastVar bracket token (if prev.isWhite then buf else buf ++ [token]) rest
      | _ => collectParm lastVar bracket token (buf ++ [token]) rest

/-! ## the string -/

/-- `\` is doubled -/
def escapeSlash (s : List Char) : List Char := s.flatMap fun c => if c = '\\' then [c, c] else [c]

/-- a `\` is put before `\` and `"` -/
def escape (s : List Char) : List Char :=
  s.flatMap fun c => if c = '\\' ∨ c = '"' then ['\\', c] else [c]

/-- what `BuildString` writes for a token in front of `rest` -/
def writeToken (rest : List Token) : Token → List Char
  | .text _ buffer => escapeSlash buffer
  | .string wide buffer =>
    (if wide then ['L'] else []) ++ ['\\', '"'] ++ escape buffer ++ ['\\', '"']
  | .whiteSpace =>
    match rest with
    | [] => []
    | .whiteSpace :: _ => []
    | _ => [' ']
  | .badChar c => [c]
  | .leftParen => ['(']
  | .rightParen => [')']
  | .comma => [',']
  | .op tokenString _ => tokenString
  | .null | .eof | .missingQuote => []

/-- the loop of `BuildString` -/
def stringBody : List Token → List Char
  | [] => []
  | token :: rest => writeToken rest token ++ stringBody rest

/-- `ERR_INVALID_STRING_LITERAL` -/
def endsInSlash (ts : List Token) : Bool := ts.getLast? = some (.badChar '\\')

/-- `BuildString`: the text of the `T_STRING`, unless there is none, and whether it reports an error -/
def buildString (arg : List Token) : Option (List Char) × Bool :=
  let body := stringBody (arg.dropWhile Token.isWhite)
  (if body = [] then none else some body, endsInSlash arg)

/-- the case `T_MACRO_SHARP` of `BuildMTokenList` -/
def macroSharp (arg : Option (List Token)) : Option (List Char) × Bool :=
  match arg with
  | none => (some [], false)
  | some [] => (some [], false)
  | some arg => buildString arg

/-! ## string literals -/

def isOctal (c : Char) : Bool := '0' ≤ c ∧ c ≤ '7'

def isHex (c : Char) : Bool := c.isDigit ∨ ('a' ≤ c ∧ c ≤ 'f') ∨ ('A' ≤ c ∧ c ≤ 'F')

def hexBin (c : Char) : Nat :=
  if c.isDigit then c.toNat - '0'.toNat
  else if 'a' ≤ c then c.toNat - 'a'.toNat + 10 else c.toNat - 'A'.toNat + 10

/-- the simple escapes of `ESCChar` -/
def simpleEscape (c : Char) : Char :=
  match c with
  | 'a' => Char.ofNat 7
  | 'b' => Char.ofNat 8
  | 'f' => Char.ofNat 12
  | 'n' => Char.ofNat 10
  | 'r' => Char.ofNat 13
  | 't' => Char.ofNat 9
  | 'v' => Char.ofNat 11
  | c => c

/-- `ESCChar` behind a `\`: the byte, the characters it takes, and the rest -/
def escChar : List Char → Char × List Char × List Char
  | [] => (Char.ofNat 0, [], [])
  | c :: rest =>
    if isOctal c then
      let digits := ((c :: rest).take 3).takeWhile isOctal
      let n := digits.foldl (fun n d => n * 8 + (d.toNat - '0'.toNat)) 0
      (Char.ofNat (n % 256), digits, (c :: rest).drop digits.length)
    else if c = 'x' then
      let digits := (rest.take 127).takeWhile isHex
      let n := digits.foldl (fun n d => n * 16 + hexBin d) 0
      (Char.ofNat (n % 256), c :: digits, rest.drop digits.length)
    else (simpleEscape c, [c], rest)

/-- `RemoveEscapes`, for as many steps as there may be -/
def removeEscapes : Nat → List Char → List Char
  | 0, _ => []
  | _, [] => []
  | f + 1, c :: rest =>
    if c = '\\' then (escChar rest).1 :: removeEscapes f (escChar rest).2.2
    else c :: removeEscapes f rest

/-- the value of a string literal -/
def value (body : List Char) : List Char := removeEscapes body.length body

/-- `doScanString` behind the opening quote: the text of the literal, and what follows the closing one -/
def scanString : Nat → List Char → Option (List Char × List Char)
  | 0, _ => none
  | _, [] => none
  | f + 1, c :: rest =>
    if c = '\n' then none
    else if c = '"' then some ([], rest)
    else if c = '\\' then
      (scanString f (escChar rest).2.2).map fun p => (c :: ((escChar rest).2.1 ++ p.1), p.2)
    else (scanString f rest).map fun p => (c :: p.1, p.2)

/-- the text stands between two quotes: it is scanned up to the second one -/
def IsLiteral (body : List Char) : Prop :=
  ∀ rest, scanString (body.length + 1 + rest.length) (body ++ '"' :: rest) = some (body, rest)

/-! ## the spelling -/

/-- a token as it is written -/
def Token.spell : Token → List Char
  | .text _ buffer => buffer
  | .string wide buffer => (if wide then ['L'] else []) ++ '"' :: buffer ++ ['"']
  | .whiteSpace => [' ']
  | .badChar c => [c]
  | .leftParen => ['(']
  | .rightParen => [')']
  | .comma => [',']
  | .op _ written => written
  | .null | .eof | .missingQuote => []

/-- the white space in front of a token is one blank, unless nothing is before it; the white space at the
end is gone -/
def normal : Bool → Bool → List Token → List Token
  | _, _, [] => []
  | first, gap, t :: ts =>
    if t.isWhite then normal first true ts
    else (if gap ∧ first = false then [.whiteSpace, t] else [t]) ++ normal false false ts

/-- the spelling of an argument, with its white space brought to single blanks -/
def spelling (ts : List Token) : List Char := (normal true false ts).flatMap Token.spell

/-- a token of the scanner: it is written on one line with at least one character, and the names of the
operators have neither `\` nor `"` -/
def Scanned (t : Token) : Prop :=
  t.spell ≠ [] ∧ '\n' ∉ t.spell ∧
    match t with
    | .op tokenString _ => tokenString ≠ [] ∧ '\\' ∉ tokenString ∧ '"' ∉ tokenString
    | .badChar c => c ≠ '"'
    | .null | .eof | .missingQuote => False
    | _ => True

instance (t : Token) : Decidable (Scanned t) := by
  unfold Scanned
  cases t <;> exact inferInstance

/-- a `\` outside of constants and strings -/
def StraySlash (t : Token) : Prop := t = .badChar '\\'

/-- a `"` in a constant, or an operator that is written in another way than its name -/
def Respelled : Token → Prop
  | .text _ buffer => '"' ∈ buffer
  | .op tokenString written => tokenString ≠ written
  | _ => False

instance (t : Token) : Decidable (StraySlash t) := inferInstanceAs (Decidable (t = .badChar '\\'))

instance (t : Token) : Decidable (Respelled t) := by
  unfold Respelled
  cases t <;> exact inferInstance

/-! ## what is stored -/

/-- in front of the first token the white space does not matter -/
theorem normal_first (ts : List Token) (g g' : Bool) : normal true g ts = normal true g' ts := by
  induction ts with
  | nil => rfl
  | cons t ts ih =>
    unfold normal
    by_cases h : t.isWhite = true
    · rw [if_pos h, if_pos h]
    · rw [if_neg h, if_neg h, if_neg fun hc => Bool.noConfusion hc.2,
        if_neg fun hc => Bool.noConfusion hc.2]

theorem normal_white (first gap : Bool) (ts : List Token) :
    normal first gap (.whiteSpace :: ts) = normal first true ts := rfl

theorem normal_cons {t : Token} (h : t.isWhite = false) (first gap : Bool) (ts : List Token) :
    normal first gap (t :: ts) =
      (if gap ∧ first = false then [.whiteSpace, t] else [t]) ++ normal false false ts := by
  rw [normal, if_neg (by rw [h]; exact Bool.false_ne_true)]

/-- the last token that was stored is the last one that was read -/
def Stored (prev : Token) (buf : List Token) : Prop :=
  prev.isWhite = true → ∃ b, b ≠ [] ∧ buf = b ++ [.whiteSpace]

/-- behind the tokens that are stored come those to be stored -/
theorem saveParm_store {prev t : Token} {buf : List Token} (hs : Stored prev buf)
    (ht : t.isWhite = false) (ts : List Token) :
    buf ++ [t] ++ normal false false ts =
      saveParm prev buf ++ normal (buf.isEmpty) prev.isWhite (t :: ts) := by
  rw [normal_cons ht]
  cases hp : prev.isWhite with
  | true =>
    obtain ⟨b, hb, rfl⟩ := hs hp
    have e : (b ++ [Token.whiteSpace]).isEmpty = false := by simp
    rw [saveParm, if_pos hp, List.dropLast_concat, e, if_pos ⟨rfl, rfl⟩]
    simp only [List.append_assoc, List.cons_append, List.nil_append]
  | false =>
    rw [saveParm, if_neg (by rw [hp]; exact Bool.false_ne_true),
      if_neg fun h => Bool.noConfusion h.1, List.append_assoc]

theorem stored_nonwhite {t : Token} (h : t.isWhite = false) (buf : List Token) : Stored t buf :=
  fun h' => by rw [h] at h'; cases h'

theorem saveParm_nonwhite {t : Token} (h : t.isWhite = false) (buf : List Token) :
    saveParm t buf = buf := if_neg (by rw [h]; exact Bool.false_ne_true)

/-- the loop stores the argument in its normal form -/
theorem collectParm_spec {lastVar : Bool} (toks : List Token) : ∀ {bracket : Nat} {prev : Token}
    {buf arg : List Token} {d : Token} {rest : List Token}, Stored prev buf →
    collectParm lastVar bracket prev buf toks = some (arg, d, rest) →
    ∃ ts, toks = ts ++ d :: rest ∧ (.missingQuote ∉ ts →
      arg = saveParm prev buf ++ normal buf.isEmpty prev.isWhite ts) := by
  induction toks with
  | nil =>
    intro bracket prev buf arg d rest _ h
    cases h
  | cons token toks ih =>
    intro bracket prev buf arg d rest hs h
    have hdone : some (saveParm prev buf, token, toks) = some (arg, d, rest) →
        ∃ ts, token :: toks = ts ++ d :: rest ∧ (.missingQuote ∉ ts →
          arg = saveParm prev buf ++ normal buf.isEmpty prev.isWhite ts) := by
      intro h
      cases h
      exact ⟨[], rfl, fun _ => (List.append_nil _).symm⟩
    have hstore {bracket' : Nat} (ht : token.isWhite = false)
        (h : collectParm lastVar bracket' token (buf ++ [token]) toks = some (arg, d, rest)) :
        ∃ ts, token :: toks = ts ++ d :: rest ∧ (.missingQuote ∉ ts →
          arg = saveParm prev buf ++ normal buf.isEmpty prev.isWhite ts) := by
      obtain ⟨ts, h1, h2⟩ := ih (stored_nonwhite ht _) h
      refine ⟨token :: ts, by rw [h1]; rfl, fun hm => ?_⟩
      rw [List.mem_cons, not_or] at hm
      have e : (buf ++ [token]).isEmpty = false := by simp
      rw [h2 hm.2, saveParm_nonwhite ht, e, ht, saveParm_store hs ht]
    unfold collectParm at h
    by_cases hw : token.isWhite = true ∧ buf = []
    · rw [if_pos hw] at h
      obtain ⟨ts, h1, h2⟩ := ih hs h
      refine ⟨token :: ts, by rw [h1]; rfl, fun hm => ?_⟩
      rw [List.mem_cons, not_or] at hm
      have ht : token = .whiteSpace := by
        cases token <;> first | rfl | exact Bool.noConfusion hw.1
      have e : buf.isEmpty = true := by rw [hw.2]; rfl
      rw [h2 hm.2, ht, e, normal_white, normal_first ts _ true]
    · rw [if_neg hw] at h
      cases token with
      | null => cases h
      | eof => cases h
      | leftParen => exact hstore rfl h
      | rightParen =>
        dsimp only at h
        split_ifs at h
        · exact hdone h
        · exact hstore rfl h
      | comma =>
        dsimp only at h
        split_ifs at h
        · exact hdone h
        · exact hstore rfl h
      | missingQuote =>
        dsimp only at h
        split_ifs at h
        · exact hdone h
        · obtain ⟨ts, h1, -⟩ := ih (stored_nonwhite rfl _) h
          exact ⟨.missingQuote :: ts, by rw [h1]; rfl, fun hm => absurd List.mem_cons_self hm⟩
      | whiteSpace =>
        have hb : buf ≠ [] := fun e => hw ⟨rfl, e⟩
        have e : buf.isEmpty = false := by simpa using hb
        dsimp only at h
        cases hp : prev.isWhite with
        | true =>
          rw [if_pos hp] at h
          obtain ⟨ts, h1, h2⟩ := ih (show Stored .whiteSpace buf from fun _ => hs hp) h
          refine ⟨.whiteSpace :: ts, by rw [h1]; rfl, fun hm => ?_⟩
          rw [List.mem_cons, not_or] at hm
          rw [h2 hm.2, normal_white, saveParm, saveParm, if_pos hp]
          rfl
        | false =>
          rw [if_neg (by rw [hp]; exact Bool.false_ne_true)] at h
          obtain ⟨ts, h1, h2⟩ := ih (show Stored .whiteSpace (buf ++ [.whiteSpace]) from fun _ => ⟨buf, hb, rfl⟩) h
          refine ⟨.whiteSpace :: ts, by rw [h1]; rfl, fun hm => ?_⟩
          rw [List.mem_cons, not_or] at hm
          have e2 : (buf ++ [Token.whiteSpace]).isEmpty = false := by simp
          have e3 : saveParm .whiteSpace (buf ++ [.whiteSpace]) = buf := by
            show (buf ++ [Token.whiteSpace]).dropLast = buf
            exact List.dropLast_concat
          rw [h2 hm.2, normal_white, e2, e3, saveParm_nonwhite hp, e]
          rfl
      | string => exact hstore rfl h
      | text => exact hstore rfl h
      | badChar => exact hstore rfl h
      | op => exact hstore rfl h

/-! ## escapes -/

theorem escape_append (s t : List Char) : escape (s ++ t) = escape s ++ escape t :=
  List.flatMap_append

theorem escape_cons (c : Char) (s : List Char) :
    escape (c :: s) = (if c = '\\' ∨ c = '"' then ['\\', c] else [c]) ++ escape s := rfl

theorem escape_plain {s : List Char} (h1 : '\\' ∉ s) (h2 : '"' ∉ s) : escape s = s := by
  induction s with
  | nil => rfl
  | cons c s ih =>
    rw [List.mem_cons, not_or] at h1 h2
    have hc : ¬ (c = '\\' ∨ c = '"') := by
      rintro (rfl | rfl)
      · exact h1.1 rfl
      · exact h2.1 rfl
    rw [escape_cons, if_neg hc, ih h1.2 h2.2]
    rfl

theorem escapeSlash_eq {s : List Char} (h : '"' ∉ s) : escapeSlash s = escape s := by
  refine List.flatMap_congr fun c hc => ?_
  have hq : c ≠ '"' := fun e => h (e ▸ hc)
  by_cases hs : c = '\\'
  · rw [if_pos hs, if_pos (Or.inl hs), hs]
  · rw [if_neg hs, if_neg (not_or.mpr ⟨hs, hq⟩)]

/-- an escaped `\` or `"` stands for itself -/
theorem escChar_escaped {c : Char} (h : c = '\\' ∨ c = '"') (rest : List Char) :
    escChar (c :: rest) = (c, [c], rest) := by
  obtain rfl | rfl := h <;> rfl

theorem removeEscapes_escape (s : List Char) : ∀ {f : Nat}, (escape s).length ≤ f →
    removeEscapes f (escape s) = s := by
  induction s with
  | nil =>
    intro f _
    cases f <;> rfl
  | cons c s ih =>
    intro f hf
    rw [escape_cons] at hf ⊢
    by_cases h : c = '\\' ∨ c = '"'
    · rw [if_pos h] at hf ⊢
      have hlen : (escape s).length + 2 ≤ f := hf
      obtain ⟨f, rfl⟩ := Nat.exists_eq_add_of_le' (show 1 ≤ f by omega)
      show (if '\\' = '\\' then (escChar (c :: escape s)).1 ::
        removeEscapes f (escChar (c :: escape s)).2.2 else _) = _
      rw [if_pos rfl, escChar_escaped h, ih (by omega)]
    · rw [if_neg h] at hf ⊢
      have hlen : (escape s).length + 1 ≤ f := hf
      obtain ⟨f, rfl⟩ := Nat.exists_eq_add_of_le' (show 1 ≤ f by omega)
      show (if c = '\\' then _ else c :: removeEscapes f (escape s)) = _
      rw [if_neg (not_or.mp h).1, ih (by omega)]

theorem value_escape (s : List Char) : value (escape s) = s := removeEscapes_escape s (le_refl _)

theorem scanString_escape (s rest : List Char) (hn : '\n' ∉ s) : ∀ {f : Nat},
    (escape s).length < f → scanString f (escape s ++ '"' :: rest) = some (escape s, rest) := by
  induction s with
  | nil =>
    intro f hf
    obtain ⟨f, rfl⟩ := Nat.exists_eq_add_of_le' (show 1 ≤ f by omega)
    rfl
  | cons c s ih =>
    intro f hf
    rw [List.mem_cons, not_or] at hn
    rw [escape_cons] at hf ⊢
    by_cases h : c = '\\' ∨ c = '"'
    · rw [if_pos h] at hf ⊢
      have hlen : (escape s).length + 2 < f := hf
      obtain ⟨f, rfl⟩ := Nat.exists_eq_add_of_le' (show 1 ≤ f by omega)
      show (scanString f (escChar (c :: (escape s ++ '"' :: rest))).2.2).map
        (fun p => ('\\' :: ((escChar (c :: (escape s ++ '"' :: rest))).2.1 ++ p.1), p.2)) = _
      rw [escChar_escaped h, ih hn.2 (by omega)]
      rfl
    · rw [if_neg h] at hf ⊢
      have hlen : (escape s).length + 1 < f := hf
      obtain ⟨f, rfl⟩ := Nat.exists_eq_add_of_le' (show 1 ≤ f by omega)
      show (if c = '\n' then none else if c = '"' then _ else if c = '\\' then _ else
        (scanString f (escape s ++ '"' :: rest)).map fun p => (c :: p.1, p.2)) = _
      rw [if_neg (Ne.symm hn.1), if_neg (not_or.mp h).2, if_neg (not_or.mp h).1, ih hn.2 (by omega)]
      rfl

theorem isLiteral_escape {s : List Char} (hn : '\n' ∉ s) : IsLiteral (escape s) :=
  fun rest => scanString_escape s rest hn (by omega)

/-! ## the string of an argument -/

/-- what is written for a token: a `\` that stands alone is copied as it is -/
def written (t : Token) : List Char := if t = .badChar '\\' then ['\\'] else escape t.spell

/-- the text of the literal that an argument gives -/
def literalText (ts : List Token) : List Char := (normal true false ts).flatMap written

theorem writeToken_written {t : Token} (hs : Scanned t) (hre : ¬ Respelled t) (hw : t.isWhite = false)
    (rest : List Token) : writeToken rest t = written t := by
  obtain ⟨-, -, hs⟩ := hs
  cases t with
  | null => exact absurd hs id
  | eof => exact absurd hs id
  | missingQuote => exact absurd hs id
  | whiteSpace => cases hw
  | leftParen => rfl
  | rightParen => rfl
  | comma => rfl
  | text kind buffer => exact escapeSlash_eq hre
  | badChar c =>
    by_cases hc : c = '\\'
    · rw [hc]
      rfl
    · have h2 : c ≠ '"' := hs
      rw [written, if_neg fun h => hc (Token.badChar.inj h)]
      show [c] = escape [c]
      rw [escape_plain]
      · exact fun h => hc (List.mem_singleton.mp h).symm
      · exact fun h => h2 (List.mem_singleton.mp h).symm
  | op tokenString written =>
    have he : tokenString = written := not_not.mp hre
    show tokenString = escape written
    rw [← he, escape_plain hs.2.1 hs.2.2]
  | string wide buffer =>
    show (if wide then ['L'] else []) ++ ['\\', '"'] ++ escape buffer ++ ['\\', '"'] =
      escape ((if wide then ['L'] else []) ++ '"' :: buffer ++ ['"'])
    rw [escape_append, escape_append, escape_cons]
    cases wide <;> rfl

theorem written_ne_nil {t : Token} (h : Scanned t) : written t ≠ [] := by
  unfold written
  split_ifs
  · exact List.cons_ne_nil _ _
  · intro hnil
    have hv := value_escape t.spell
    rw [hnil] at hv
    exact h.1 hv.symm

section
variable {ts : List Token}

theorem stringBody_normal (hs : ∀ t ∈ ts, Scanned t) (hre : ∀ t ∈ ts, ¬ Respelled t) : ∀ first gap,
    stringBody (normal first gap ts) = (normal first gap ts).flatMap written := by
  induction ts with
  | nil => exact fun _ _ => rfl
  | cons t ts ih =>
    intro first gap
    obtain ⟨ht, hts⟩ := List.forall_mem_cons.mp hs
    obtain ⟨hr, hrs⟩ := List.forall_mem_cons.mp hre
    by_cases hw : t.isWhite = true
    · have e : t = .whiteSpace := by
        cases t <;> first | rfl | exact Bool.noConfusion hw
      rw [e, normal_white]
      exact ih hts hrs first true
    · have hw' : t.isWhite = false := Bool.eq_false_iff.mpr hw
      have hone : stringBody (t :: normal false false ts) =
          (t :: normal false false ts).flatMap written := by
        show writeToken _ t ++ stringBody (normal false false ts) =
          written t ++ (normal false false ts).flatMap written
        rw [writeToken_written ht hr hw', ih hts hrs]
      rw [normal_cons hw']
      by_cases hg : gap = true ∧ first = false
      · rw [if_pos hg]
        have hblank : writeToken (t :: normal false false ts) .whiteSpace = [' '] := by
          cases t <;> first | rfl | exact Bool.noConfusion hw'
        show writeToken (t :: normal false false ts) .whiteSpace ++
            stringBody (t :: normal false false ts) =
          [' '] ++ (t :: normal false false ts).flatMap written
        rw [hblank, hone]
      · rw [if_neg hg]
        exact hone

theorem mem_normal {t : Token} : ∀ {first gap}, t ∈ normal first gap ts → t = .whiteSpace ∨ t ∈ ts := by
  induction ts with
  | nil =>
    intro first gap h
    cases h
  | cons u ts ih =>
    intro first gap h
    unfold normal at h
    split_ifs at h with h1 h2
    · exact (ih h).imp id (List.mem_cons_of_mem u)
    · rw [List.mem_append, List.mem_cons, List.mem_singleton] at h
      obtain (h | h) | h := h
      · exact Or.inl h
      · exact Or.inr (h ▸ List.mem_cons_self)
      · exact (ih h).imp id (List.mem_cons_of_mem u)
    · rw [List.mem_append, List.mem_singleton] at h
      obtain h | h := h
      · exact Or.inr (h ▸ List.mem_cons_self)
      · exact (ih h).imp id (List.mem_cons_of_mem u)

/-- an argument in its normal form is empty, or begins with a token that is not white space -/
theorem normal_head (ts : List Token) (gap : Bool) : normal true gap ts = [] ∨
    ∃ t r, t ∈ ts ∧ t.isWhite = false ∧ normal true gap ts = t :: r := by
  induction ts generalizing gap with
  | nil => exact Or.inl rfl
  | cons t ts ih =>
    by_cases hw : t.isWhite = true
    · have e : normal true gap (t :: ts) = normal true true ts := by rw [normal, if_pos hw]
      rw [e]
      exact (ih true).imp id fun ⟨u, r, h1, h2, h3⟩ => ⟨u, r, List.mem_cons_of_mem t h1, h2, h3⟩
    · have hw' : t.isWhite = false := Bool.eq_false_iff.mpr hw
      refine Or.inr ⟨t, normal false false ts, List.mem_cons_self, hw', ?_⟩
      rw [normal_cons hw', if_neg fun h => Bool.noConfusion h.2]
      rfl

theorem spelling_newline (h : ∀ t ∈ ts, Scanned t) : '\n' ∉ spelling ts := by
  intro hm
  obtain ⟨t, ht, hc⟩ := List.mem_flatMap.mp hm
  obtain rfl | ht := mem_normal ht
  · revert hc
    decide
  · exact (h t ht).2.1 hc

/-- the token of an argument -/
theorem macroSharp_normal (hs : ∀ t ∈ ts, Scanned t) (hre : ∀ t ∈ ts, ¬ Respelled t) :
    macroSharp (some (normal true false ts)) =
      (some (literalText ts), endsInSlash (normal true false ts)) := by
  have hbody := stringBody_normal hs hre true false
  obtain he | ⟨t, r, ht, hw, he⟩ := normal_head ts false
  · rw [literalText, he]
    rfl
  · have hne : literalText ts ≠ [] := by
      rw [literalText, he, List.flatMap_cons]
      intro hnil
      exact written_ne_nil (hs t ht) (List.append_eq_nil_iff.mp hnil).1
    have hdrop : (t :: r).dropWhile Token.isWhite = t :: r := by
      rw [List.dropWhile_cons_of_neg (by rw [hw]; exact Bool.false_ne_true)]
    rw [literalText, ← hbody, he] at hne
    rw [literalText, ← hbody, he]
    show (if stringBody ((t :: r).dropWhile Token.isWhite) = [] then none else
      some (stringBody ((t :: r).dropWhile Token.isWhite)), endsInSlash (t :: r)) = _
    rw [hdrop, if_neg hne]

section
variable (hslash : ∀ t ∈ ts, ¬ StraySlash t)
include hslash

theorem not_stray_normal {t : Token} (ht : t ∈ normal true false ts) : t ≠ .badChar '\\' := by
  obtain rfl | ht := mem_normal ht
  · exact Token.noConfusion
  · exact hslash t ht

theorem literalText_eq : literalText ts = escape (spelling ts) := by
  rw [literalText, spelling, escape, List.flatMap_assoc]
  refine List.flatMap_congr fun t ht => ?_
  rw [written, if_neg (not_stray_normal hslash ht)]
  rfl

theorem endsInSlash_normal : endsInSlash (normal true false ts) = false := by
  rw [endsInSlash, decide_eq_false_iff_not]
  intro hl
  exact not_stray_normal hslash (List.mem_of_getLast? hl) rfl

end

end

/-! ## the operator -/

/-- the token that `#` makes of an argument: without a `\` outside of constants and strings it is a string
literal, and its value is the spelling of the argument -/
theorem stringized_value {lastVar : Bool} {prev d : Token} {ts arg rest : List Token}
    (hp : prev.isWhite = false)
    (h : collectParm lastVar 0 prev [] (ts ++ d :: rest) = some (arg, d, rest))
    (hscan : ∀ t ∈ ts, Scanned t) (hspell : ∀ t ∈ ts, ¬ Respelled t) :
    macroSharp (some arg) = (some (literalText ts), endsInSlash arg) ∧
      ((∀ t ∈ ts, ¬ StraySlash t) → endsInSlash arg = false ∧ IsLiteral (literalText ts) ∧
        value (literalText ts) = spelling ts) := by
  obtain ⟨ts', h1, h2⟩ := collectParm_spec (ts ++ d :: rest) (stored_nonwhite hp []) h
  obtain rfl := List.append_cancel_right h1
  have hq : Token.missingQuote ∉ ts := fun hm => (hscan _ hm).2.2
  have harg : arg = normal true false ts := by
    rw [h2 hq, saveParm_nonwhite hp, hp]
    rfl
  rw [harg]
  refine ⟨macroSharp_normal hscan hspell, fun hslash => ?_⟩
  rw [literalText_eq hslash]
  exact ⟨endsInSlash_normal hslash, isLiteral_escape (spelling_newline hscan), value_escape _⟩

/-- `( "a\n"  +, '\\' )` for a variable parameter, with white space at both ends -/
def niceArgument : List Token :=
  [.whiteSpace, .string false ['a', '\\', 'n'], .whiteSpace, .whiteSpace, .op ['+'] ['+'], .comma,
    .whiteSpace, .text .constant ['\'', '\\', '\\', '\''], .whiteSpace]

/-- what is stored of it -/
def niceStored : List Token :=
  [.string false ['a', '\\', 'n'], .whiteSpace, .op ['+'] ['+'], .comma, .whiteSpace,
    .text .constant ['\'', '\\', '\\', '\'']]

theorem niceArgument_stored : collectParm true 0 .leftParen [] (niceArgument ++ .rightParen :: []) =
    some (niceStored, .rightParen, []) := rfl

theorem niceArgument_stringized :
    macroSharp (some niceStored) = (some (literalText niceArgument), endsInSlash niceStored) ∧
      ((∀ t ∈ niceArgument, ¬ StraySlash t) → endsInSlash niceStored = false ∧
        IsLiteral (literalText niceArgument) ∧
        value (literalText niceArgument) = spelling niceArgument) :=
  stringized_value rfl niceArgument_stored (by decide +kernel) (by decide +kernel)

/-- `\n` outside of a constant: two tokens -/
def strayArgument : List Token := [.badChar '\\', .text .id ['n']]

/-- the literal is a line feed, and not the two characters that are written -/
theorem strayArgument_wrong : (∀ t ∈ strayArgument, Scanned t) ∧
    collectParm false 0 .leftParen [] (strayArgument ++ [.rightParen]) =
      some (strayArgument, .rightParen, []) ∧
    macroSharp (some strayArgument) = (some ['\\', 'n'], false) ∧
    value ['\\', 'n'] = ['\n'] ∧ spelling strayArgument = ['\\', 'n'] :=
  ⟨by decide +kernel, rfl, rfl, rfl, rfl⟩

end Stringize
