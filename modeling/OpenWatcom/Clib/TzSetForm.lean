import OpenWatcom.Clib.TzSet

/-!
# The parser of the TZ string on strings of the POSIX form

* `parseNumber_text`, `parseTime_text`, `parseOffset_text`, `parseName_text`, `parseRule_date`
  what each parser takes of a text, and where it stops
* `parseOS2_rules`     the parser of the OS/2 form stops at the front of POSIX rules
* `parseTz_denotes_iff`     the strings that are consumed with everything that they denote
-/

namespace TzSet

open Xtoa

/-! ## Digits and separators -/

/-- the text does not go on with a digit -/
def Stops (tz : List Char) : Prop := tz.head?.any isDigit = false

theorem digit_facts {d : ℕ} (h : d < 10) :
    isDigit (digit d) = true ∧ ((digit d).toNat : ℤ) - '0'.toNat = d := by
  have all : ∀ d ∈ List.range 10,
      isDigit (digit d) = true ∧ ((digit d).toNat : ℤ) - '0'.toNat = d := by decide +kernel
  exact all d (List.mem_range.mpr h)

theorem stops_cons {c : Char} {tz : List Char} (h : isDigit c = false) : Stops (c :: tz) := h

theorem stops_nil : Stops [] := rfl

theorem numberLoop_stop {value : ℤ} {tz : List Char} (h : Stops tz) :
    numberLoop value tz = (value, tz) := by
  cases tz with
  | nil => rfl
  | cons c tz =>
    have hc : ¬ isDigit c = true := by
      rw [Bool.not_eq_true]
      exact h
    rw [numberLoop, if_neg hc]

theorem numberLoop_digits {l : List ℕ} (hl : ∀ d ∈ l, d < 10) {rest : List Char} (h : Stops rest) :
    ∀ value : ℤ, numberLoop value (l.map digit ++ rest) =
      (l.foldl (fun (v : ℤ) (d : ℕ) => v * 10 + d) value, rest) := by
  induction l with
  | nil => exact fun _ => numberLoop_stop h
  | cons d l ih =>
    intro value
    obtain ⟨h1, h2⟩ := digit_facts (hl d List.mem_cons_self)
    have e : value * 10 + (digit d).toNat - '0'.toNat = value * 10 + d := by omega
    rw [List.map_cons, List.cons_append, numberLoop, if_pos h1, e,
      ih (fun e he => hl e (List.mem_cons_of_mem _ he)), List.foldl_cons]

theorem parseNumber_text (n : Num) {rest : List Char} (h : Stops rest) :
    parseNumber (n.text ++ rest) = (n.value, rest) := numberLoop_digits n.is_digit h 0

theorem parseNumber_stop {tz : List Char} (h : Stops tz) : parseNumber tz = (0, tz) :=
  numberLoop_stop h

/-- a number begins with a digit -/
theorem num_head (n : Num) : ∃ c tz, n.text = c :: tz ∧ isDigit c = true := by
  obtain ⟨d, l, e⟩ := List.exists_cons_of_ne_nil n.some_digit
  refine ⟨digit d, l.map digit, by rw [Num.text, e]; rfl, ?_⟩
  exact (digit_facts (n.is_digit d (by rw [e]; exact List.mem_cons_self))).1

theorem looksAt_cons (c : Char) (tz : List Char) : looksAt (c :: tz) c := rfl

/-- what a digit is not -/
theorem not_looksAt {c d : Char} (hc : isDigit c = true) (hd : isDigit d = false) (tz : List Char) :
    ¬ looksAt (c :: tz) d := by
  intro h
  rw [Option.some_inj.mp h, hd] at hc
  exact absurd hc Bool.false_ne_true

/-! ## Times and offsets -/

theorem parseTime_text (t : TimeText) {h m s : ℤ} (hm : m = 0) (hs : s = 0) {rest : List Char}
    (hstop : Stops rest) (hcolon : ¬ looksAt rest ':') :
    parseTime (t.text ++ rest) ⟨h, m, s⟩ = (t.clock, rest) := by
  subst hm hs
  obtain ⟨hh, mmss, hour, minute⟩ := t
  cases mmss with
  | none =>
    have e : TimeText.text ⟨hh, none, hour, minute⟩ ++ rest = hh.text ++ rest := by
      rw [TimeText.text, List.append_nil]
    rw [e, parseTime, parseNumber_text hh hstop]
    dsimp only
    rw [if_neg hcolon]
    rfl
  | some p =>
    obtain ⟨mm, ss⟩ := p
    cases ss with
    | none =>
      have e : TimeText.text ⟨hh, some (mm, none), hour, minute⟩ ++ rest =
          hh.text ++ ':' :: (mm.text ++ rest) := by
        rw [TimeText.text, List.append_assoc]
        rfl
      rw [e, parseTime, parseNumber_text hh (stops_cons rfl)]
      dsimp only
      rw [if_pos (looksAt_cons _ _), List.tail_cons, parseNumber_text mm hstop]
      dsimp only
      rw [if_neg hcolon]
      rfl
    | some ss =>
      have e : TimeText.text ⟨hh, some (mm, some ss), hour, minute⟩ ++ rest =
          hh.text ++ ':' :: (mm.text ++ ':' :: (ss.text ++ rest)) := by
        rw [TimeText.text]
        simp
      rw [e, parseTime, parseNumber_text hh (stops_cons rfl)]
      dsimp only
      rw [if_pos (looksAt_cons _ _), List.tail_cons, parseNumber_text mm (stops_cons rfl)]
      dsimp only
      rw [if_pos (looksAt_cons _ _), List.tail_cons, parseNumber_text ss hstop]
      rfl

theorem time_head (t : TimeText) : ∃ c tz, t.text = c :: tz ∧ isDigit c = true := by
  obtain ⟨c, tz, e, hc⟩ := num_head t.hh
  exact ⟨c, _, by rw [TimeText.text, e]; rfl, hc⟩

theorem parseOffset_text (o : OffsetText) (offset : ℤ) (rest : List Char) (hstop : Stops rest)
    (hcolon : ¬ looksAt rest ':') : parseOffset (o.text ++ rest) offset = (o.value, rest) := by
  obtain ⟨c, tz, e, hc⟩ := time_head o.time
  have hany : (o.time.text ++ rest).head?.any isDigit = true := by
    rw [e]
    exact hc
  have hsign : parseSign (o.text ++ rest) = (decide (o.sign = some true), o.time.text ++ rest) := by
    unfold OffsetText.text parseSign
    cases o.sign with
    | none =>
      rw [List.nil_append, e, List.cons_append, if_neg (not_looksAt hc rfl _),
        if_neg (not_looksAt hc rfl _)]
      rfl
    | some neg =>
      cases neg with
      | true => exact if_pos (looksAt_cons _ _)
      | false => rfl
  rw [parseOffset, hsign]
  dsimp only
  rw [if_pos hany, parseTime_text o.time rfl rfl hstop hcolon, OffsetText.value]
  dsimp only
  by_cases hs : o.sign = some true
  · rw [if_pos hs, if_pos (decide_eq_true hs)]
  · rw [if_neg hs, if_neg (by rw [decide_eq_true_iff]; exact hs)]

/-- without a sign and a digit there is no offset -/
theorem parseOffset_none (offset : ℤ) {tz : List Char} (hstop : Stops tz) (h1 : ¬ looksAt tz '-')
    (h2 : ¬ looksAt tz '+') : parseOffset tz offset = (offset, tz) := by
  rw [parseOffset, parseSign, if_neg h1, if_neg h2]
  dsimp only
  rw [if_neg]
  rw [Bool.not_eq_true]
  exact hstop

/-! ## Names -/

/-- what follows a name without quotes -/
def EndsName (tz : List Char) : Prop := ∀ c, tz.head? = some c → isPlain c = false

theorem alpha_toNat {c : Char} (h : c.isAlpha = true) : 65 ≤ c.toNat := by
  rw [Char.isAlpha, Bool.or_eq_true, Char.isUpper, Char.isLower, decide_eq_true_iff,
    Bool.and_eq_true, decide_eq_true_iff, decide_eq_true_iff] at h
  rcases h with h | h
  · exact h.1
  · have h1 : 97 ≤ c.toNat := h.1
    omega

theorem isPlain_alpha {c : Char} (h : c.isAlpha = true) : isPlain c = true ∧ c ≠ '<' ∧ c ≠ ':' := by
  have hge := alpha_toNat h
  have other (d : Char) (hd : d.toNat < 65) : c ≠ d := by
    rintro rfl
    omega
  refine ⟨?_, other '<' (by decide), other ':' (by decide)⟩
  rw [isPlain, decide_eq_true_iff, isDigit, decide_eq_false_iff_not]
  refine ⟨other ',' (by decide), other '-' (by decide), other '+' (by decide), fun hd => ?_⟩
  have h9 : c.toNat ≤ 57 := hd.2
  omega

theorem ne_quote {c : Char} (h : c.isAlphanum = true ∨ c = '+' ∨ c = '-') : c ≠ '>' := by
  rintro rfl
  exact absurd h (by decide)

theorem dropWhile_ends {p : Char → Bool} {tz : List Char} (h : ∀ c, tz.head? = some c → p c = false) :
    tz.takeWhile p = [] ∧ tz.dropWhile p = tz := by
  cases tz with
  | nil => exact ⟨rfl, rfl⟩
  | cons c tz =>
    have hc : ¬ p c = true := by
      rw [Bool.not_eq_true]
      exact h c rfl
    exact ⟨List.takeWhile_cons_of_neg hc, List.dropWhile_cons_of_neg hc⟩

theorem parseName_text (n : Name) (hn : n.name.length ≤ tznameMax) (rest : List Char)
    (h : EndsName rest) : parseName (n.text ++ rest) = (n.name, rest) := by
  cases n with
  | plain name hname =>
    have hall : ∀ c ∈ name, isPlain c = true := fun c hc => (isPlain_alpha (hname c hc)).1
    have hquote : ¬ looksAt (name ++ rest) '<' := by
      intro hl
      cases name with
      | nil => exact absurd (h _ hl) (by decide)
      | cons c name => exact (isPlain_alpha (hname c List.mem_cons_self)).2.1 (Option.some_inj.mp hl)
    obtain ⟨htake, hdrop⟩ := dropWhile_ends h
    show parseName (name ++ rest) = (name, rest)
    rw [parseName, if_neg hquote, List.takeWhile_append_of_pos hall, List.dropWhile_append_of_pos hall,
      htake, hdrop, List.append_nil, List.take_of_length_le (show name.length ≤ tznameMax from hn)]
  | quoted name hname =>
    have hall : ∀ c ∈ name, decide (c ≠ '>') = true := fun c hc => decide_eq_true (ne_quote (hname c hc))
    have e : Name.text (.quoted name hname) ++ rest = '<' :: (name ++ '>' :: rest) := by
      simp [Name.text]
    have hstop : ∀ c, ('>' :: rest).head? = some c → decide (c ≠ '>') = false := by
      intro c hc
      rw [← Option.some_inj.mp hc]
      rfl
    obtain ⟨ht, hd⟩ := dropWhile_ends hstop
    have htake : (name ++ '>' :: rest).takeWhile (fun c => decide (c ≠ '>')) = name := by
      rw [List.takeWhile_append_of_pos hall, ht, List.append_nil]
    have hdrop : (name ++ '>' :: rest).dropWhile (fun c => decide (c ≠ '>')) = '>' :: rest := by
      rw [List.dropWhile_append_of_pos hall, hd]
    rw [e, parseName, if_pos (looksAt_cons _ _), List.tail_cons]
    dsimp only
    rw [htake, hdrop, if_pos (looksAt_cons _ _),
      List.take_of_length_le (show name.length ≤ tznameMax from hn)]
    rfl

/-- the first character of a name, if any, is not `:` -/
theorem name_colon (n : Name) {rest : List Char} (h : ¬ looksAt rest ':') :
    ¬ looksAt (n.text ++ rest) ':' := by
  cases n with
  | plain name hname =>
    cases name with
    | nil => exact h
    | cons c name =>
      exact fun hl => (isPlain_alpha (hname c List.mem_cons_self)).2.2 (Option.some_inj.mp hl)
  | quoted name hname => exact fun hl => absurd (Option.some_inj.mp hl) (by decide)

/-- an offset begins with a sign or a digit -/
theorem offset_head (o : OffsetText) : ∃ c tz, o.text = c :: tz ∧ (isDigit c = true ∨ c = '-' ∨ c = '+') := by
  obtain ⟨c, tz, e, hc⟩ := time_head o.time
  rw [OffsetText.text, e]
  cases o.sign with
  | none => exact ⟨c, tz, rfl, Or.inl hc⟩
  | some neg =>
    cases neg with
    | true => exact ⟨'-', c :: tz, rfl, Or.inr (Or.inl rfl)⟩
    | false => exact ⟨'+', c :: tz, rfl, Or.inr (Or.inr rfl)⟩

theorem endsName_offset (o : OffsetText) (rest : List Char) : EndsName (o.text ++ rest) := by
  obtain ⟨c, tz, e, hc⟩ := offset_head o
  intro d hd
  rw [e] at hd
  obtain rfl : c = d := Option.some_inj.mp hd
  rw [isPlain, decide_eq_false_iff_not]
  rintro ⟨-, h2, h3, h4⟩
  rcases hc with hc | hc | hc
  · rw [hc] at h4
    exact Bool.noConfusion h4
  · exact h2 hc
  · exact h3 hc

/-! ## Rules -/

/-- a date behind `parse_rule`'s first part, whatever the time is then set to -/
theorem Date.Stored.clock {d : Date} {tm : Tm} (h : d.Stored tm) (c : Clock) :
    d.Stored { tm with sec := c.seconds, min := c.minutes, hour := c.hours } := by
  cases d with
  | julian n => exact h
  | day n => exact h
  | month m w d => exact h

theorem parseRule_date (d : Date) (tm : Tm) (rest : List Char) (hstop : Stops rest) :
    ∃ tm', d.Stored tm' ∧
    parseRule (d.text ++ rest) tm =
      ({ tm' with
          sec := (ruleTime rest).1.seconds
          min := (ruleTime rest).1.minutes
          hour := (ruleTime rest).1.hours }, (ruleTime rest).2) := by
  suffices h : ∃ tm' form tz, d.Stored tm' ∧ ruleForm (d.text ++ rest) = (form, tz) ∧
      ruleDate tm form tz = (tm', rest) by
    obtain ⟨tm', form, tz, hs, h1, h2⟩ := h
    refine ⟨tm', hs, ?_⟩
    rw [parseRule, h1]
    dsimp only
    rw [h2]
  cases d with
  | julian n =>
    obtain ⟨c, tz, e, hc⟩ := num_head n
    have hM : ¬ looksAt (n.text ++ rest) 'M' := by
      rw [e]
      exact not_looksAt hc rfl _
    refine ⟨{ tm with isdst := 1, yday := n.value }, 1, n.text ++ rest, ⟨rfl, rfl⟩, ?_, ?_⟩
    · show ruleForm ('J' :: (n.text ++ rest)) = _
      rw [ruleForm, if_pos (looksAt_cons _ _), List.tail_cons]
      exact if_neg hM
    · rw [ruleDate, if_pos (by decide), parseNumber_text n hstop]
  | day n =>
    obtain ⟨c, tz, e, hc⟩ := num_head n
    have not (d : Char) (hd : isDigit d = false) : ¬ looksAt (n.text ++ rest) d := by
      rw [e]
      exact not_looksAt hc hd _
    refine ⟨{ tm with isdst := -1, yday := n.value }, -1, n.text ++ rest, ⟨rfl, rfl⟩, ?_, ?_⟩
    · show ruleForm (n.text ++ rest) = _
      rw [ruleForm, if_neg (not 'J' rfl)]
      exact if_neg (not 'M' rfl)
    · rw [ruleDate, if_pos (by decide), parseNumber_text n hstop]
  | month m w d =>
    refine ⟨{ tm with isdst := 0, mon := m.value - 1, mday := w.value, wday := d.value, yday := 0 },
      0, m.text ++ '.' :: (w.text ++ '.' :: (d.text ++ rest)), ⟨rfl, rfl, rfl, rfl⟩, ?_, ?_⟩
    · have e : Date.text (.month m w d ‹_› ‹_› ‹_›) ++ rest =
          'M' :: (m.text ++ '.' :: (w.text ++ '.' :: (d.text ++ rest))) := by
        simp [Date.text]
      rw [e]
      rfl
    · rw [ruleDate, if_neg (by decide), parseMonth, parseNumber_text m (stops_cons rfl)]
      dsimp only
      rw [if_pos (looksAt_cons _ _), List.tail_cons, parseNumber_text w (stops_cons rfl)]
      dsimp only
      rw [if_pos (looksAt_cons _ _), List.tail_cons, parseNumber_text d hstop]

/-- a rule without a time -/
theorem parseRule_text (r : RuleText) (hr : r.time = none) (tm : Tm) (rest : List Char)
    (hstop : Stops rest) (hslash : ¬ looksAt rest '/') :
    ∃ tm', r.Stored 0 tm' ∧ parseRule (r.text ++ rest) tm = (tm', rest) := by
  obtain ⟨d, time⟩ := r
  obtain rfl : time = none := hr
  obtain ⟨tm', hd, e⟩ := parseRule_date d tm rest hstop
  have htime : ruleTime rest = (⟨2, 0, 0⟩, rest) := if_neg hslash
  rw [htime] at e
  refine ⟨_, ⟨hd.clock ⟨2, 0, 0⟩, rfl⟩, ?_⟩
  rw [RuleText.text, List.append_nil]
  exact e

/-- the position stays in front of the `/` of a time -/
theorem parseRule_time (r : RuleText) {time : TimeText} (hr : r.time = some time) (tm : Tm)
    (rest : List Char) : (parseRule (r.text ++ rest) tm).2 = '/' :: (time.text ++ rest) := by
  obtain ⟨d, t⟩ := r
  obtain rfl : t = some time := hr
  have happ : RuleText.text ⟨d, some time⟩ ++ rest = d.text ++ '/' :: (time.text ++ rest) := by
    simp [RuleText.text]
  obtain ⟨tm', -, e⟩ := parseRule_date d tm ('/' :: (time.text ++ rest)) (stops_cons rfl)
  rw [happ, e]
  show (ruleTime ('/' :: (time.text ++ rest))).2 = _
  rw [ruleTime, if_pos (looksAt_cons _ _), parseTime, parseNumber_stop (stops_cons rfl)]
  rfl

/-- the seconds of a rule whose time is made one of standard time -/
theorem fixRule_seconds (tm : Tm) (adjust : ℤ) : (fixRule tm adjust).seconds = tm.seconds - adjust := by
  have h1 := Int.mul_tdiv_add_tmod adjust 60
  have h2 := Int.mul_tdiv_add_tmod (adjust.tdiv 60) 60
  have h3 : (adjust.tdiv 60).tdiv 60 = adjust.tdiv 3600 := by
    rcases le_total 0 adjust with h | h
    · rw [Int.tdiv_eq_ediv_of_nonneg h, Int.tdiv_eq_ediv_of_nonneg (by omega),
        Int.tdiv_eq_ediv_of_nonneg h]
      omega
    · obtain ⟨n, rfl⟩ : ∃ n, adjust = -n := ⟨-adjust, by omega⟩
      have hn : 0 ≤ n := by omega
      rw [Int.neg_tdiv, Int.neg_tdiv, Int.neg_tdiv, Int.tdiv_eq_ediv_of_nonneg hn,
        Int.tdiv_eq_ediv_of_nonneg hn, Int.tdiv_eq_ediv_of_nonneg (by omega)]
      omega
  rw [h3] at h2
  rw [Tm.seconds, Tm.seconds, fixRule]
  dsimp only
  omega

theorem fixRule_stored {d : Date} {tm : Tm} (h : d.Stored tm) (adjust : ℤ) :
    d.Stored (fixRule tm adjust) := by
  cases d with
  | julian n => exact h
  | day n => exact h
  | month m w d => exact h

/-! ## The OS/2 form -/

/-- the text of a rule does not begin with a sign, and is a number up to the end of its date only in
the form of a day -/
theorem rule_cases (r : RuleText) (rest : List Char) :
    (∃ tz, r.text ++ rest = 'J' :: tz ∨ r.text ++ rest = 'M' :: tz) ∨
      ∃ (n : Num) (tz : List Char), r.text ++ rest = n.text ++ tz ∧ (tz = rest ∨ looksAt tz '/') := by
  obtain ⟨d, time⟩ := r
  cases d with
  | julian n => exact Or.inl ⟨_, Or.inl rfl⟩
  | month m w d => exact Or.inl ⟨_, Or.inr rfl⟩
  | day n =>
    refine Or.inr ⟨n, _, List.append_assoc _ _ _, ?_⟩
    cases time with
    | none => exact Or.inl rfl
    | some time => exact Or.inr rfl

theorem stops_slash {tz : List Char} (h : looksAt tz '/') : Stops tz := by
  rw [Stops, h]
  rfl

/-- a rule is no week of the OS/2 form -/
theorem rule_week (r : RuleText) : parseSign r.text = (false, r.text) ∧ ¬ looksAt r.text ',' ∧
    (r.text = (parseNumber r.text).2 ∨ ¬ looksAt (parseNumber r.text).2 ',') := by
  have letter (c : Char) (tz : List Char) (h : isDigit c = false) (h1 : c ≠ '-') (h2 : c ≠ '+')
      (h3 : c ≠ ',') : parseSign (c :: tz) = (false, c :: tz) ∧ ¬ looksAt (c :: tz) ',' ∧
      (c :: tz = (parseNumber (c :: tz)).2 ∨ ¬ looksAt (parseNumber (c :: tz)).2 ',') := by
    have not {d : Char} (hd : c ≠ d) : ¬ looksAt (c :: tz) d := fun h => hd (Option.some_inj.mp h)
    refine ⟨?_, not h3, Or.inl ?_⟩
    · rw [parseSign, if_neg (not h1), if_neg (not h2)]
    · rw [parseNumber_stop (stops_cons h)]
  rcases rule_cases r [] with ⟨tz, e | e⟩ | ⟨n, tz, e, htz⟩
  · rw [List.append_nil] at e
    rw [e]
    exact letter 'J' tz rfl (by decide) (by decide) (by decide)
  · rw [List.append_nil] at e
    rw [e]
    exact letter 'M' tz rfl (by decide) (by decide) (by decide)
  · obtain ⟨c, l, en, hc⟩ := num_head n
    have hend : Stops tz ∧ ¬ looksAt tz ',' := by
      rcases htz with rfl | hslash
      · exact ⟨rfl, fun h => absurd h (by decide)⟩
      · exact ⟨stops_slash hslash, fun h => absurd (hslash.symm.trans h) (by decide)⟩
    rw [List.append_nil] at e
    rw [e, parseNumber_text n hend.1]
    refine ⟨?_, ?_, Or.inr hend.2⟩
    · rw [en, List.cons_append, parseSign, if_neg (not_looksAt hc rfl _), if_neg (not_looksAt hc rfl _)]
    · rw [en]
      exact not_looksAt hc rfl _

/-- the parser of the OS/2 form does not find the comma behind a rule of its own in POSIX rules -/
theorem parseRuleOS2_rules (start stop : RuleText) (tm : Tm) :
    ¬ looksAt (parseRuleOS2 (start.text ++ ',' :: stop.text) tm).2 ',' := by
  have letter (c : Char) (hc : isDigit c = false) (hne : c ≠ ',') (tz : List Char) :
      ¬ looksAt (parseRuleOS2 (c :: tz) tm).2 ',' := by
    rw [parseRuleOS2, parseNumber_stop (stops_cons hc)]
    dsimp only
    rw [if_pos (Or.inl rfl)]
    exact fun h => hne (Option.some_inj.mp h)
  rcases rule_cases start (',' :: stop.text) with ⟨tz, e | e⟩ | ⟨n, tz, e, htz⟩
  · rw [e]
    exact letter 'J' rfl (by decide) tz
  · rw [e]
    exact letter 'M' rfl (by decide) tz
  · obtain ⟨c, l, en, hc⟩ := num_head n
    have hfirst : ¬ looksAt (n.text ++ tz) ',' := by
      rw [en]
      exact not_looksAt hc rfl _
    rcases htz with rfl | hslash
    · -- a month and a comma, but no week behind it
      have hne : ¬ (n.text ++ ',' :: stop.text = ',' :: stop.text) := fun h => by
        rw [h] at hfirst
        exact hfirst (looksAt_cons _ _)
      obtain ⟨hsign, hcomma, hweek⟩ := rule_week stop
      rw [e, parseRuleOS2, parseNumber_text n (stops_cons rfl)]
      dsimp only
      rw [if_neg (not_or.mpr ⟨hne, not_not.mpr (looksAt_cons _ _)⟩), List.tail_cons, hsign]
      dsimp only
      rw [if_pos (or_assoc.mp (Or.inl hweek))]
      exact hcomma
    · have hnot : ¬ looksAt tz ',' := fun h => absurd (hslash.symm.trans h) (by decide)
      rw [e, parseRuleOS2, parseNumber_text n (stops_slash hslash)]
      dsimp only
      rw [if_pos (Or.inr hnot)]
      exact hfirst

theorem parseOS2_rules (start stop : RuleText) (time1 time2 : Tm) (timezone dayZone : ℤ) :
    parseOS2 (start.text ++ ',' :: stop.text) time1 time2 timezone dayZone =
      (time1, time2, dayZone, start.text ++ ',' :: stop.text) := by
  rw [parseOS2]
  have h := parseRuleOS2_rules start stop Tm.zero
  dsimp only
  rw [if_pos (Or.inr h)]

/-! ## The string -/

section
variable (int : IntSize) (g : Zone)

/-- the text of the daylight zone ends the offset in front of it -/
theorem dst_ends (d : DstText) (hne : d.name.name ≠ []) : Stops d.text ∧ ¬ looksAt d.text ':' ∧ d.text ≠ [] := by
  have front : ∃ c tz, d.text = c :: tz ∧ isDigit c = false ∧ c ≠ ':' := by
    rw [DstText.text]
    cases hn : d.name with
    | plain name h =>
      rw [hn] at hne
      obtain ⟨c, l, rfl⟩ := List.exists_cons_of_ne_nil (show name ≠ [] from hne)
      obtain ⟨h1, -, h3⟩ := isPlain_alpha (h c List.mem_cons_self)
      rw [isPlain, decide_eq_true_iff] at h1
      exact ⟨c, _, rfl, h1.2.2.2, h3⟩
    | quoted name h => exact ⟨'<', _, rfl, rfl, by decide⟩
  obtain ⟨c, tz, e, h1, h2⟩ := front
  rw [e]
  exact ⟨stops_cons h1, fun h => h2 (Option.some_inj.mp h), List.cons_ne_nil _ _⟩

theorem parseTz_text (z : TzString) (hz : z.Ok) : parseTz int g z.text =
    match z.dst with
    | none => ({ g with
        stzone := z.std.name, timezone := z.offset.value, daylight := 0, dtzone := [] }, [])
    | some d => parseDaylight int
        { g with stzone := z.std.name, timezone := z.offset.value, daylight := 0 } d.text := by
  have common (rest : List Char) (hs : Stops rest) (hc : ¬ looksAt rest ':') :
      parseTz int g (z.std.text ++ (z.offset.text ++ rest)) =
        if rest = [] then ({ g with
          stzone := z.std.name, timezone := z.offset.value, daylight := 0, dtzone := [] }, rest)
        else parseDaylight int
          { g with stzone := z.std.name, timezone := z.offset.value, daylight := 0 } rest := by
    have hcolon : ¬ looksAt (z.offset.text ++ rest) ':' := by
      obtain ⟨c, tz, e, h⟩ := offset_head z.offset
      rw [e]
      intro hl
      obtain rfl : c = ':' := Option.some_inj.mp hl
      rcases h with h | h | h
      · exact absurd h (by decide)
      · exact absurd h (by decide)
      · exact absurd h (by decide)
    rw [parseTz, if_neg (name_colon z.std hcolon)]
    dsimp only
    rw [parseName_text z.std hz.1 _ (endsName_offset z.offset rest)]
    dsimp only
    rw [parseOffset_text z.offset _ _ hs hc]
  rw [TzString.text, List.append_assoc]
  cases hd : z.dst with
  | none =>
    dsimp only
    rw [common [] stops_nil (fun h => absurd h (by decide)), if_pos rfl]
  | some d =>
    obtain ⟨h1, h2, h3⟩ := dst_ends d (hz.2 d hd).1
    dsimp only
    rw [common d.text h1 h2, if_neg h3]

/-- the daylight zone without rules -/
theorem parseDaylight_plain (d : DstText) (hd : d.name.name.length ≤ tznameMax)
    (hr : d.rules = none) (offset : ℤ)
    (ho : offset = (d.offset.map OffsetText.value).getD (g.timezone - 60 * 60)) :
    parseDaylight int g d.text = ({ g with
      daylight := 1, dtzone := d.name.name, dstAdjust := storeInt int (g.timezone - offset) }, []) := by
  subst ho
  have comma : ¬ looksAt [] ',' := fun h => absurd h (by decide)
  rw [DstText.text, hr, List.append_nil]
  cases he : d.offset with
  | none =>
    dsimp only
    have hname := parseName_text d.name hd [] (fun c h => absurd h (by simp))
    rw [parseDaylight, hname]
    dsimp only
    rw [if_neg comma, parseOffset_none _ stops_nil (fun h => absurd h (by decide))
      (fun h => absurd h (by decide))]
    dsimp only
    rw [if_neg comma]
    rfl
  | some o =>
    dsimp only
    have hname := parseName_text d.name hd _ (endsName_offset o [])
    rw [List.append_nil] at hname
    have hoff := parseOffset_text o (g.timezone - 60 * 60) [] stops_nil (fun h => absurd h (by decide))
    rw [List.append_nil] at hoff
    have hcomma : ¬ looksAt o.text ',' := by
      obtain ⟨c, tz, e, h⟩ := offset_head o
      rw [e]
      intro hl
      obtain rfl : c = ',' := Option.some_inj.mp hl
      exact absurd h (by decide)
    rw [parseDaylight, hname]
    dsimp only
    rw [if_neg hcomma, hoff]
    dsimp only
    rw [if_neg comma]
    rfl

/-- rules behind the name are taken for the OS/2 form -/
theorem parseDaylight_os2 (d : DstText) (hd : d.name.name.length ≤ tznameMax)
    {start stop : RuleText} (hr : d.rules = some (start, stop)) (ho : d.offset = none) :
    (parseDaylight int g d.text).2 ≠ [] := by
  have hends : EndsName (',' :: start.text ++ ',' :: stop.text) := by
    intro c hc
    rw [← Option.some_inj.mp hc]
    rfl
  have hne : start.text ++ ',' :: stop.text ≠ [] := by simp
  rw [DstText.text, hr, ho]
  dsimp only
  rw [List.append_nil, parseDaylight, parseName_text d.name hd _ hends]
  dsimp only
  rw [if_pos (show looksAt (',' :: start.text ++ ',' :: stop.text) ',' from rfl)]
  have htail : (',' :: start.text ++ ',' :: stop.text).tail = start.text ++ ',' :: stop.text := rfl
  rw [htail, parseOS2_rules]
  dsimp only
  rw [if_neg hne]
  exact hne

/-- rules behind an offset -/
theorem parseDaylight_rules (d : DstText) (hd : d.name.name.length ≤ tznameMax)
    {start stop : RuleText} (hr : d.rules = some (start, stop)) {o : OffsetText}
    (ho : d.offset = some o) :
    parseDaylight int g d.text =
      let adjust := storeInt int (g.timezone - o.value)
      let r := parseRule (start.text ++ ',' :: stop.text) g.startDst
      let g := { g with daylight := 1, dtzone := d.name.name, dstAdjust := adjust, startDst := r.1 }
      if looksAt r.2 ',' then
        let e := parseRule r.2.tail g.endDst
        ({ g with endDst := fixRule e.1 adjust }, e.2)
      else (g, r.2) := by
  have hname := parseName_text d.name hd _ (endsName_offset o (',' :: start.text ++ ',' :: stop.text))
  have hoff := parseOffset_text o (g.timezone - 60 * 60)
    (',' :: start.text ++ ',' :: stop.text) (stops_cons rfl)
    (fun h => absurd (Option.some_inj.mp h) (by decide))
  have hcomma : ¬ looksAt (o.text ++ (',' :: start.text ++ ',' :: stop.text)) ',' := by
    obtain ⟨c, tz, e, h⟩ := offset_head o
    rw [e]
    intro hl
    obtain rfl : c = ',' := Option.some_inj.mp hl
    exact absurd h (by decide)
  rw [DstText.text, hr, ho]
  dsimp only
  rw [List.append_assoc, parseDaylight, hname]
  dsimp only
  rw [if_neg hcomma, hoff]
  dsimp only
  rw [if_pos (show looksAt (',' :: start.text ++ ',' :: stop.text) ',' from rfl)]
  rfl

theorem storeInt_hour : storeInt int 3600 = 3600 := by
  cases int <;> decide

/-- a POSIX string is consumed and everything in it stored exactly where nothing of it is dropped -/
theorem parseTz_denotes_iff (z : TzString) (hz : z.Ok) :
    Denotes z (parseTz int g z.text).1 (parseTz int g z.text).2 ↔ z.Kept int := by
  rw [parseTz_text int g z hz, Denotes, TzString.Kept]
  cases hdst : z.dst with
  | none =>
    dsimp only
    exact iff_of_true ⟨rfl, rfl, rfl, rfl, rfl⟩ fun d hd => absurd hd (Option.some_ne_none d).symm
  | some d =>
    have hlen := (hz.2 d hdst).2
    have single (P : DstText → Prop) : (∀ e, some d = some e → P e) ↔ P d :=
      ⟨fun h => h d rfl, fun h e he => by rw [← Option.some_inj.mp he]; exact h⟩
    rw [single]
    dsimp only
    cases hr : d.rules with
    | none =>
      have hadj : z.offset.value - (d.offset.map OffsetText.value).getD (z.offset.value - 60 * 60) =
          z.adjust d := by
        rw [TzString.adjust]
        cases d.offset with
        | none =>
          rw [Option.map_none, Option.map_none, Option.getD_none, Option.getD_none]
          omega
        | some o => rfl
      rw [parseDaylight_plain int _ d hlen hr _ rfl]
      dsimp only
      rw [hadj]
      constructor
      · exact fun h => ⟨h.2.2.2.2.2.1, fun _ _ h => absurd h (Option.some_ne_none _).symm⟩
      · exact fun h => ⟨rfl, rfl, rfl, rfl, rfl, h.1, fun _ _ h => absurd h (Option.some_ne_none _).symm⟩
    | some p =>
      obtain ⟨start, stop⟩ := p
      have pair (P : RuleText → RuleText → Prop) :
          (∀ a b, some (start, stop) = some (a, b) → P a b) ↔ P start stop := by
        refine ⟨fun h => h start stop rfl, fun h a b he => ?_⟩
        obtain ⟨rfl, rfl⟩ := Prod.mk.inj (Option.some_inj.mp he)
        exact h
      rw [pair, pair]
      cases ho : d.offset with
      | none =>
        refine iff_of_false (fun h => ?_) (fun h => absurd h.2.1 (by decide))
        exact parseDaylight_os2 int _ d hlen hr ho h.1
      | some o =>
        have hadj : z.adjust d = z.offset.value - o.value := by
          rw [TzString.adjust, ho]
          rfl
        rw [parseDaylight_rules int _ d hlen hr ho]
        dsimp only
        rw [← hadj]
        cases h1 : start.time with
        | some time =>
          have hend : (parseRule (start.text ++ ',' :: stop.text) g.startDst).2 =
              '/' :: (time.text ++ ',' :: stop.text) := parseRule_time start h1 g.startDst _
          have hcomma : ¬ looksAt (parseRule (start.text ++ ',' :: stop.text) g.startDst).2 ',' := by
            rw [hend]
            exact fun h => absurd (Option.some_inj.mp h) (by decide)
          rw [if_neg hcomma]
          refine iff_of_false (fun h => ?_) (fun h => absurd h.2.2.1 (Option.some_ne_none _))
          rw [hend] at h
          exact List.cons_ne_nil _ _ h.1
        | none =>
          obtain ⟨tm1, hs1, e1⟩ := parseRule_text start h1 g.startDst (',' :: stop.text)
            (stops_cons rfl) (fun h => absurd (Option.some_inj.mp h) (by decide))
          rw [e1]
          dsimp only
          rw [if_pos (looksAt_cons _ _), List.tail_cons]
          cases h2 : stop.time with
          | some time =>
            have hend := parseRule_time stop h2 g.endDst []
            rw [List.append_nil] at hend
            refine iff_of_false (fun h => ?_) (fun h => absurd h.2.2.2 (Option.some_ne_none _))
            rw [hend] at h
            exact List.cons_ne_nil _ _ h.1
          | none =>
            obtain ⟨tm2, hs2, e2⟩ := parseRule_text stop h2 g.endDst [] stops_nil
              (fun h => absurd h (by decide))
            rw [List.append_nil] at e2
            rw [e2]
            dsimp only
            constructor
            · exact fun h => ⟨h.2.2.2.2.2.1, rfl, rfl, rfl⟩
            · rintro ⟨hstore, -⟩
              refine ⟨rfl, rfl, rfl, rfl, rfl, hstore, hs1, ?_, ?_⟩
              · exact fixRule_stored hs2.1 _
              · rw [fixRule_seconds, hs2.2, hstore, sub_zero]

end

/-! ## Central Europe -/

def oneDigit (d : ℕ) (h : d < 10) : Num :=
  ⟨[d], List.cons_ne_nil _ _, fun e he => by rw [List.mem_singleton.mp he]; exact h⟩

def twoDigits (c d : ℕ) (hc : c < 10) (hd : d < 10) : Num :=
  ⟨[c, d], List.cons_ne_nil _ _, fun e he => by
    rcases List.mem_pair.mp he with rfl | rfl
    · exact hc
    · exact hd⟩

def atHour (d : ℕ) (h : d < 10) : TimeText :=
  ⟨oneDigit d h, none, by simp [oneDigit, Num.value]; omega,
    fun _ _ h => absurd h (Option.some_ne_none _).symm⟩

/-- `CET-1CEST-2,M3.5.0,M10.5.0`, with an offset for the daylight zone or without, and with the times
`/2` and `/3` or without -/
def centralEurope (offset time : Bool) : TzString where
  std := .plain ['C', 'E', 'T'] (List.all_eq_true.mp (by decide))
  offset := ⟨some true, atHour 1 (by decide)⟩
  dst := some
    { name := .plain ['C', 'E', 'S', 'T'] (List.all_eq_true.mp (by decide))
      offset := if offset then some ⟨some true, atHour 2 (by decide)⟩ else none
      rules := some (
        ⟨.month (oneDigit 3 (by decide)) (oneDigit 5 (by decide)) (oneDigit 0 (by decide))
          (by decide) (by decide) (by decide), if time then some (atHour 2 (by decide)) else none⟩,
        ⟨.month (twoDigits 1 0 (by decide) (by decide)) (oneDigit 5 (by decide))
          (oneDigit 0 (by decide)) (by decide) (by decide) (by decide),
          if time then some (atHour 3 (by decide)) else none⟩) }

theorem centralEurope_ok (offset time : Bool) : (centralEurope offset time).Ok := by
  have three : 3 ≤ tznameMax ∧ 4 ≤ tznameMax := by decide
  refine ⟨three.1, fun d hd => ?_⟩
  obtain rfl := Option.some_inj.mp hd
  exact ⟨List.cons_ne_nil _ _, three.2⟩

def emptyZone : Zone := ⟨[], [], 0, 0, 0, Tm.zero, Tm.zero⟩

theorem centralEurope_kept : Denotes (centralEurope true false)
    (parseTz .four emptyZone (centralEurope true false).text).1
    (parseTz .four emptyZone (centralEurope true false).text).2 := by
  refine (parseTz_denotes_iff .four emptyZone _ (centralEurope_ok true false)).mpr ?_
  intro d hd
  obtain rfl := Option.some_inj.mp hd
  refine ⟨by decide +kernel, fun a b he => ?_⟩
  obtain ⟨rfl, rfl⟩ := Prod.mk.inj (Option.some_inj.mp he)
  exact ⟨rfl, rfl, rfl⟩

/-- `CET-1CEST,M3.5.0/2,M10.5.0/3`: the parser stops at the rules -/
theorem centralEurope_dropped : ¬ Denotes (centralEurope false true)
    (parseTz .four emptyZone (centralEurope false true).text).1
    (parseTz .four emptyZone (centralEurope false true).text).2 := by
  intro h
  exact absurd h.1 (by decide +kernel)

end TzSet
