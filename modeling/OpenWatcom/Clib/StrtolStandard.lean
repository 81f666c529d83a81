import OpenWatcom.Clib.Strtol

/-!
# The text to number functions against the standard

* `digitLoop_eq`     the loop takes the digits, and its flag tells the numbers that do not fit
* `numeral_front`     the numbers that a text begins with
* `finish_returns`     the sign, the limits and `ERANGE`
* `run_standard_iff`     the result is the one of the standard, but for a prefix `0x` before no digit
* `strtoull_ulltoa`, `strtoll_lltoa`     printing and reading back
-/

namespace Strtol

open Xtoa Digits

/-! ## Digits -/

theorem radixValue_eq (c : Char) : radixValue c = (digitValue c).getD 37 := by
  have small : ∀ n ∈ List.range 128,
      radixValue (Char.ofNat n) = (digitValue (Char.ofNat n)).getD 37 := by decide +kernel
  by_cases h : c.toNat < 128
  · have e := small c.toNat (List.mem_range.mpr h)
    rw [Char.ofNat_toNat] at e
    exact e
  · have high (d : Char) (hd : d.toNat < 128) : ¬ c ≤ d := by
      intro hle
      have : c.toNat ≤ d.toNat := hle
      omega
    have h9 := high '9' (by decide)
    have hZ := high 'Z' (by decide)
    have hi := high 'i' (by decide)
    have hr := high 'r' (by decide)
    have hz := high 'z' (by decide)
    have e : toLower c = c := if_neg fun hc => hZ hc.2
    have d1 : c.isDigit = false := by
      rw [Bool.eq_false_iff]
      intro hc
      rw [Char.isDigit, Bool.and_eq_true, decide_eq_true_iff, decide_eq_true_iff] at hc
      exact h9 hc.2
    have d2 : c.isLower = false := by
      rw [Bool.eq_false_iff]
      intro hc
      rw [Char.isLower, Bool.and_eq_true, decide_eq_true_iff, decide_eq_true_iff] at hc
      exact hz hc.2
    have d3 : c.isUpper = false := by
      rw [Bool.eq_false_iff]
      intro hc
      rw [Char.isUpper, decide_eq_true_iff] at hc
      exact hZ hc.2
    rw [radixValue, if_neg fun hc => h9 hc.2, e]
    dsimp only
    rw [if_neg fun hc => hi hc.2, if_neg fun hc => hr hc.2, if_neg fun hc => hz hc.2, digitValue, d1,
      d2, d3]
    rfl

/-- a character that the loop takes -/
theorem radixValue_lt_iff {base : ℕ} (hb : base ≤ 36) (c : Char) :
    radixValue c < base ↔ ∃ d, digitValue c = some d ∧ d < base := by
  rw [radixValue_eq]
  cases digitValue c with
  | none => exact iff_of_false (by simp only [Option.getD_none]; omega) (by simp)
  | some d => simp

theorem radixValue_getD {base : ℕ} (hb : base ≤ 36) {c : Char} (h : radixValue c < base) :
    radixValue c = (digitValue c).getD 0 := by
  obtain ⟨d, hd, -⟩ := (radixValue_lt_iff hb c).mp h
  rw [radixValue_eq, hd]
  rfl

theorem nearlyOverflowing_getD (bits : ℕ) {base : ℕ} (h2 : 2 ≤ base) (h36 : base ≤ 36) :
    (nearlyOverflowing bits).getD (base - 2) 0 = (2 ^ bits - 1) / base := by
  rw [nearlyOverflowing, List.getD_eq_getElem?_getD, List.getElem?_map, List.getElem?_range (by omega)]
  show (2 ^ bits - 1) / (base - 2 + 2) = _
  rw [Nat.sub_add_cancel h2]

/-! ## The loop -/

section
variable {bits base : ℕ}

theorem valueOf_append (base : ℕ) (l : List Char) (c : Char) :
    valueOf base (l ++ [c]) = valueOf base l * base + (digitValue c).getD 0 := by
  rw [valueOf, List.foldl_append]
  rfl

/-- the word and the flag stand for the number `n` -/
def Stands (bits : ℕ) (value : ℕ) (overflow : Bool) (n : ℕ) : Prop :=
  value < 2 ^ bits ∧ (overflow = true ↔ 2 ^ bits ≤ n) ∧ (overflow = false → value = n)

/-- the three tests of a step tell an overflow exactly -/
theorem stands_step (hbits : 2 ^ 12 ≤ 2 ^ bits) (h2 : 2 ≤ base) (h36 : base ≤ 36) {digit n : ℕ}
    (hd : digit < base) {s : Loop} (h : Stands bits s.value s.overflow n) :
    Stands bits (s.step bits base digit).value (s.step bits base digit).overflow
      (n * base + digit) := by
  obtain ⟨hlt, hov, heq⟩ := h
  have pos : 0 < 2 ^ bits := Nat.two_pow_pos bits
  have hgrow : n ≤ n * base := Nat.le_mul_of_pos_right n (by omega)
  rw [Loop.step, nearlyOverflowing_getD bits h2 h36]
  dsimp only
  have hlt' := Nat.mod_lt (s.value * base + digit) pos
  by_cases ho : s.overflow = true
  · have := hov.mp ho
    rw [ho]
    exact ⟨hlt', iff_of_true rfl (by omega), fun h => Bool.noConfusion h⟩
  · have ho' : s.overflow = false := by simpa using ho
    have hn := heq ho'
    subst hn
    rw [ho', Bool.false_or]
    have table : s.value > (2 ^ bits - 1) / base ↔ 2 ^ bits ≤ s.value * base := by
      rw [gt_iff_lt, Nat.div_lt_iff_lt_mul (by omega)]
      omega
    by_cases hmul : 2 ^ bits ≤ s.value * base
    · rw [decide_eq_true (table.mpr hmul), Bool.true_or]
      exact ⟨hlt', iff_of_true rfl (by omega), fun h => Bool.noConfusion h⟩
    · rw [decide_eq_false (mt table.mp hmul), Bool.false_or]
      by_cases hadd : 2 ^ bits ≤ s.value * base + digit
      · -- the sum wraps to less than a digit
        have e : (s.value * base + digit) % 2 ^ bits = s.value * base + digit - 2 ^ bits := by
          rw [Nat.mod_eq_sub_mod hadd, Nat.mod_eq_of_lt (by omega)]
        have hdigit : digit ≤ s.value := by
          by_contra hlt
          have : s.value * base ≤ 36 * 36 := Nat.mul_le_mul (by omega) h36
          omega
        have hwrap : s.value * base + digit - 2 ^ bits < s.value := by omega
        rw [e, decide_eq_true hwrap]
        exact ⟨by omega, iff_of_true rfl hadd, fun h => Bool.noConfusion h⟩
      · have e : (s.value * base + digit) % 2 ^ bits = s.value * base + digit :=
          Nat.mod_eq_of_lt (by omega)
        rw [e, decide_eq_false (by omega)]
        exact ⟨by omega, iff_of_false Bool.false_ne_true hadd, fun _ => rfl⟩

/-- the loop takes the digits at the front, and stands for their number -/
theorem digitLoop_eq (hbits : 2 ^ 12 ≤ 2 ^ bits) (h2 : 2 ≤ base) (h36 : base ≤ 36) :
    ∀ (p before : List Char) (value : ℕ) (overflow : Bool),
      Stands bits value overflow (valueOf base before) →
    (digitLoop bits base value overflow p).p = p.dropWhile (radixValue · < base) ∧
      Stands bits (digitLoop bits base value overflow p).value
        (digitLoop bits base value overflow p).overflow
        (valueOf base (before ++ p.takeWhile (radixValue · < base))) := by
  intro p
  induction p with
  | nil =>
    intro before value overflow h
    rw [digitLoop, List.takeWhile_nil, List.append_nil]
    exact ⟨rfl, h⟩
  | cons c p ih =>
    intro before value overflow h
    rw [digitLoop]
    by_cases hc : radixValue c < base
    · have hs := @stands_step bits base hbits h2 h36 (radixValue c) _ hc ⟨value, overflow, c :: p⟩ h
      rw [radixValue_getD h36 hc, ← valueOf_append, ← radixValue_getD h36 hc] at hs
      rw [if_neg (by omega), List.dropWhile_cons_of_pos (by simpa using hc),
        List.takeWhile_cons_of_pos (by simpa using hc)]
      have hrec := ih (before ++ [c]) _ _ hs
      rw [List.append_assoc, List.singleton_append] at hrec
      exact hrec
    · rw [if_pos (by omega), List.dropWhile_cons_of_neg (by simpa using hc),
        List.takeWhile_cons_of_neg (by simpa using hc), List.append_nil]
      exact ⟨rfl, h⟩

theorem stands_start : Stands bits 0 false (valueOf base []) :=
  ⟨Nat.two_pow_pos bits, iff_of_false Bool.false_ne_true (Nat.not_le.mpr (Nat.two_pow_pos bits)),
    fun _ => rfl⟩

end

/-! ## The numbers that a text begins with -/

section
variable {base m : ℕ} {s t u : List Char}

theorem digits_front {b : ℕ} (hb : b ≤ 36) (h : Digits b u) (hu : u <+: t) :
    u <+: t.takeWhile (radixValue · < b) := by
  obtain ⟨rest, rfl⟩ := hu
  have hall : ∀ c ∈ u, decide (radixValue c < b) = true := fun c hc =>
    decide_eq_true ((radixValue_lt_iff hb c).mpr (h.2 c hc))
  rw [List.takeWhile_append_of_pos hall]
  exact List.prefix_append _ _

theorem digits_takeWhile {b : ℕ} (hb : b ≤ 36) (h : t.takeWhile (radixValue · < b) ≠ []) :
    Digits b (t.takeWhile (radixValue · < b)) :=
  ⟨h, fun c hc => (radixValue_lt_iff hb c).mp (by simpa using List.mem_takeWhile_imp hc)⟩

/-- the first character of a number is no sign -/
theorem numeral_head (h : Numeral base u m) : ∃ c l, u = c :: l ∧ c ≠ '-' ∧ c ≠ '+' := by
  have first {b : ℕ} {text : List Char} (h : Digits b text) :
      ∃ c l, text = c :: l ∧ c ≠ '-' ∧ c ≠ '+' := by
    obtain ⟨hne, hd⟩ := h
    obtain ⟨c, l, rfl⟩ := List.exists_cons_of_ne_nil hne
    obtain ⟨d, hc, -⟩ := hd c List.mem_cons_self
    refine ⟨c, l, rfl, ?_, ?_⟩
    · rintro rfl
      cases hc
    · rintro rfl
      cases hc
  cases h with
  | digits _ h => exact first h
  | hex _ h => exact ⟨'0', _, rfl, by decide, by decide⟩
  | decimal _ h => exact first h
  | octal _ h => exact first h
  | hexConstant _ h => exact ⟨'0', _, rfl, by decide, by decide⟩

theorem hexStr_of_front {x : Char} (hx : x = 'x' ∨ x = 'X') (h : '0' :: x :: u <+: t) :
    hexStr t = true := by
  obtain ⟨rest, rfl⟩ := h
  exact decide_eq_true hx

theorem hexStr_iff : hexStr t = true ↔ ∃ x rest, (x = 'x' ∨ x = 'X') ∧ t = '0' :: x :: rest := by
  constructor
  · intro h
    unfold hexStr at h
    split at h
    · rename_i c rest
      exact ⟨c, rest, of_decide_eq_true h, rfl⟩
    · exact absurd h Bool.false_ne_true
  · rintro ⟨x, rest, hx, rfl⟩
    exact decide_eq_true hx

theorem head_of_front (hne : u ≠ []) (h : u <+: t) : t.head? = u.head? := by
  obtain ⟨rest, rfl⟩ := h
  exact List.head?_append_of_ne_nil u hne

/-- the bases that the standard allows -/
def BaseOk (base : ℕ) : Prop := base = 0 ∨ 2 ≤ base ∧ base ≤ 36

theorem baseOf_range (h : BaseOk base) (t : List Char) : 2 ≤ baseOf base t ∧ baseOf base t ≤ 36 := by
  rw [baseOf]
  by_cases h0 : base = 0
  · rw [if_pos h0]
    split
    · decide
    · split
      · decide
      · decide
  · rw [if_neg h0]
    exact h.resolve_left h0

/-- the prefix of base 16 is there and is skipped -/
def Skips (base : ℕ) (t : List Char) : Prop := baseOf base t = 16 ∧ hexStr t = true

theorem skipHex_pos (h : Skips base t) : skipHex (baseOf base t) t = t.drop 2 := if_pos h

theorem skipHex_neg (h : ¬ Skips base t) : skipHex (baseOf base t) t = t := if_neg h

/-- without a prefix a number is made of the digits at the front -/
theorem numeral_front (hok : BaseOk base) (hs : ¬ Skips base t) (h : Numeral base u m)
    (hu : u <+: t) : u <+: t.takeWhile (radixValue · < baseOf base t) := by
  have same (h0 : base ≠ 0) : baseOf base t = base := if_neg h0
  cases h with
  | digits hb h =>
    rw [same (by omega)]
    exact digits_front (by rcases hok with h | h <;> omega) h hu
  | hex hx h => exact absurd ⟨same (by decide), hexStr_of_front hx hu⟩ hs
  | decimal h0 h =>
    have hhead : t.head? ≠ some '0' := by rw [head_of_front h.1 hu]; exact h0
    have hnot : ¬ hexStr t = true := by
      intro hh
      obtain ⟨x, rest, -, rfl⟩ := hexStr_iff.mp hh
      exact hhead rfl
    have e : baseOf 0 t = 10 := by rw [baseOf, if_pos rfl, if_neg hnot, if_neg hhead]
    rw [e]
    exact digits_front (by decide) h hu
  | octal h0 h =>
    have hhead : t.head? = some '0' := by rw [head_of_front h.1 hu]; exact h0
    have hnot : ¬ hexStr t = true := fun hh => hs ⟨by rw [baseOf, if_pos rfl, if_pos hh], hh⟩
    have e : baseOf 0 t = 8 := by rw [baseOf, if_pos rfl, if_neg hnot, if_pos hhead]
    rw [e]
    exact digits_front (by decide) h hu
  | hexConstant hx h =>
    have hh := hexStr_of_front hx hu
    exact absurd ⟨by rw [baseOf, if_pos rfl, if_pos hh], hh⟩ hs

/-- with a prefix a number is the zero of the prefix, or goes on with the digits behind it -/
theorem numeral_front_hex (hs : Skips base t) (h : Numeral base u m) (hu : u <+: t) :
    u.length ≤ 2 + ((t.drop 2).takeWhile (radixValue · < 16)).length := by
  obtain ⟨x, rest, hx, rfl⟩ := hexStr_iff.mp hs.2
  have short {b : ℕ} {text : List Char} (hb : b ≤ 16) (h : Digits b text)
      (hp : text <+: '0' :: x :: rest) : text.length ≤ 1 := by
    by_contra hlen
    obtain ⟨c, d, l, rfl⟩ : ∃ c d l, text = c :: d :: l := by
      match text, hlen with
      | c :: d :: l, _ => exact ⟨c, d, l, rfl⟩
    obtain ⟨more, hmore⟩ := hp
    obtain rfl : d = x := by injection hmore with _ h; injection h
    obtain ⟨v, hv, hlt⟩ := h.2 d (List.mem_cons_of_mem _ List.mem_cons_self)
    have e : digitValue d = some 33 := by rcases hx with rfl | rfl <;> rfl
    rw [e, Option.some_inj] at hv
    omega
  have long {y : Char} {text : List Char} (h : Digits 16 text)
      (hp : '0' :: y :: text <+: '0' :: x :: rest) :
      ('0' :: y :: text).length ≤ 2 + (rest.takeWhile (radixValue · < 16)).length := by
    have hp' : text <+: rest := by
      obtain ⟨more, hmore⟩ := hp
      injection hmore with _ h
      injection h with _ h
      exact ⟨more, h⟩
    have := (digits_front (by decide) h hp').length_le
    rw [List.length_cons, List.length_cons]
    omega
  show u.length ≤ 2 + (rest.takeWhile (radixValue · < 16)).length
  cases h with
  | digits hb h =>
    have hb16 : base = 16 := by
      have e : baseOf base ('0' :: x :: rest) = base := if_neg (by omega)
      rw [← e]
      exact hs.1
    have := short (Nat.le_of_eq hb16) h hu
    omega
  | hex _ h => exact long h hu
  | decimal h0 h =>
    have := short (by decide) h hu
    omega
  | octal h0 h =>
    have := short (by decide) h hu
    omega
  | hexConstant _ h => exact long h hu

/-- the digits that the code takes, with the prefix that it skips, are a number -/
theorem numeral_taken (hok : BaseOk base)
    (hne : (skipHex (baseOf base t) t).takeWhile (radixValue · < baseOf base t) ≠ []) :
    ∃ pre, t = pre ++ skipHex (baseOf base t) t ∧
      Numeral base (pre ++ (skipHex (baseOf base t) t).takeWhile (radixValue · < baseOf base t))
        (valueOf (baseOf base t)
          ((skipHex (baseOf base t) t).takeWhile (radixValue · < baseOf base t))) ∧
      (pre = [] ∧ ¬ Skips base t ∨ pre.length = 2 ∧ Skips base t) := by
  have range := baseOf_range hok t
  have hd := digits_takeWhile range.2 hne
  by_cases hs : Skips base t
  · obtain ⟨x, rest, hx, rfl⟩ := hexStr_iff.mp hs.2
    have e := hs.1
    rw [skipHex_pos hs] at hd ⊢
    rw [e] at hd ⊢
    refine ⟨['0', x], rfl, ?_, Or.inr ⟨rfl, hs⟩⟩
    by_cases h0 : base = 0
    · subst h0
      exact Numeral.hexConstant hx hd
    · rw [baseOf, if_neg h0] at e
      subst e
      exact Numeral.hex hx hd
  · rw [skipHex_neg hs] at hd ⊢
    refine ⟨[], rfl, ?_, Or.inl ⟨rfl, hs⟩⟩
    rw [List.nil_append]
    by_cases h0 : base = 0
    · subst h0
      have hnot : ¬ hexStr t = true := fun hh => hs ⟨by rw [baseOf, if_pos rfl, if_pos hh], hh⟩
      have hhead := head_of_front hd.1 (List.takeWhile_prefix _)
      by_cases h8 : t.head? = some '0'
      · have e : baseOf 0 t = 8 := by rw [baseOf, if_pos rfl, if_neg hnot, if_pos h8]
        rw [e] at hd hhead ⊢
        exact Numeral.octal (hhead.symm.trans h8) hd
      · have e : baseOf 0 t = 10 := by rw [baseOf, if_pos rfl, if_neg hnot, if_neg h8]
        rw [e] at hd hhead ⊢
        exact Numeral.decimal (fun h => h8 (hhead.trans h)) hd
    · have e : baseOf base t = base := if_neg h0
      rw [e] at hd range ⊢
      exact Numeral.digits range.1 hd

/-- the prefix before no digit begins with the number 0 -/
theorem numeral_zero (hs : Skips base t) : ∃ m, Numeral base ['0'] m ∧ ['0'] <+: t := by
  obtain ⟨x, rest, hx, rfl⟩ := hexStr_iff.mp hs.2
  have hd {b : ℕ} (hb : 0 < b) : Digits b ['0'] :=
    ⟨List.cons_ne_nil _ _, fun c hc => ⟨0, by rw [List.mem_singleton.mp hc]; rfl, hb⟩⟩
  have e := hs.1
  have hp : ['0'] <+: '0' :: x :: rest := ⟨x :: rest, rfl⟩
  by_cases h0 : base = 0
  · subst h0
    exact ⟨_, Numeral.octal rfl (hd (by decide)), hp⟩
  · rw [baseOf, if_neg h0] at e
    subst e
    exact ⟨_, Numeral.digits (by decide) (hd (by decide)), hp⟩

/-! ## The sign -/

/-- a text of the expected form is the sign that is there, and a number -/
theorem expected_sign {text : List Char} {minus : Bool} (h : Expected base text minus m)
    (hp : text <+: s) : minus = (sign s).1 ∧ ∃ u, Numeral base u m ∧ u <+: (sign s).2 ∧
      text.length + (sign s).2.length = u.length + s.length := by
  obtain ⟨rest, rfl⟩ := hp
  cases h with
  | plain h =>
    obtain ⟨c, l, rfl, h1, h2⟩ := numeral_head h
    have e : sign (c :: l ++ rest) = (false, c :: l ++ rest) := by
      rw [List.cons_append, sign]
      · rintro p ⟨⟩
        exact h1 rfl
      · rintro p ⟨⟩
        exact h2 rfl
    rw [e]
    exact ⟨rfl, _, h, ⟨rest, rfl⟩, rfl⟩
  | plus h =>
    refine ⟨rfl, _, h, ⟨rest, rfl⟩, ?_⟩
    simp [sign]
    omega
  | minus h =>
    refine ⟨rfl, _, h, ⟨rest, rfl⟩, ?_⟩
    simp [sign]
    omega

/-- a number after the sign that is there -/
theorem sign_expected (h : Numeral base u m) {rest : List Char} (hu : u ++ rest = (sign s).2) :
    ∃ text, Expected base text (sign s).1 m ∧ text ++ rest = s := by
  unfold sign at hu ⊢
  split at hu
  · exact ⟨_, Expected.minus h, by rw [List.cons_append, hu]⟩
  · exact ⟨_, Expected.plus h, by rw [List.cons_append, hu]⟩
  · exact ⟨_, Expected.plain h, hu⟩

end

/-! ## The result -/

section
variable (f : Function) {base m : ℕ}

theorem Function.half : 2 ^ f.bits = 2 * 2 ^ (f.bits - 1) := by
  cases f <;> rfl

/-- the end of the code for the number `m`: the limits with `ERANGE`, or the number with its sign -/
theorem finish_returns (minus : Bool) {value : ℕ} {overflow : Bool}
    (h : Stands f.bits value overflow m) (endptr : List Char) :
    f.number ⟨(finish f.bits f.who minus value overflow).1, endptr,
      (finish f.bits f.who minus value overflow).2⟩ = (f.returns minus m).1 ∧
    ((finish f.bits f.who minus value overflow).2 = some .erange ↔ (f.returns minus m).2 = true) := by
  obtain ⟨hlt, hov, heq⟩ := h
  have hhalf := f.half
  have pos : 0 < 2 ^ (f.bits - 1) := Nat.two_pow_pos _
  have c1 : (2 : ℤ) ^ (f.bits - 1) = ((2 ^ (f.bits - 1) : ℕ) : ℤ) := by push_cast; rfl
  have c2 : (2 : ℤ) ^ f.bits = 2 * ((2 ^ (f.bits - 1) : ℕ) : ℤ) := by
    rw [← c1]
    exact_mod_cast hhalf
  rw [Function.number, Function.returns, finish, c1, c2]
  rw [hhalf] at hlt hov ⊢
  dsimp only
  generalize 2 ^ (f.bits - 1) = half at *
  have hmag : overflow = false → value = m ∧ m < 2 * half := fun ho => by
    have := heq ho
    omega
  have hbig : overflow = true → 2 * half ≤ m := hov.mp
  cases hw : f.who with
  | true =>
    cases minus with
    | true =>
      by_cases hm : m ≤ half
      · have ho : overflow = false := by
          rw [← Bool.not_eq_true]
          intro ho
          have := hbig ho
          omega
        obtain ⟨rfl, -⟩ := hmag ho
        have htest : (overflow || (true && decide (value ≥ half) &&
            !(decide (value = half) && true))) = false := by
          rw [ho]
          simp
          omega
        rw [htest, if_neg Bool.false_ne_true]
        dsimp only
        rw [if_pos rfl, if_pos rfl, if_pos rfl, if_pos hm]
        refine ⟨?_, by simp⟩
        by_cases h0 : value = 0
        · rw [h0, Nat.sub_zero, Nat.mod_self, if_neg (by omega)]
          rfl
        · rw [Nat.mod_eq_of_lt (by omega), if_pos ⟨rfl, by omega⟩]
          push_cast [show value ≤ 2 * half by omega]
          omega
      · have htest : (overflow || (true && decide (value ≥ half) &&
            !(decide (value = half) && true))) = true := by
          cases ho : overflow with
          | true => rfl
          | false =>
            obtain ⟨rfl, -⟩ := hmag ho
            simp
            omega
        rw [htest, if_pos rfl, if_pos rfl]
        dsimp only
        rw [if_pos rfl, if_pos rfl, if_pos rfl, if_neg hm, if_pos ⟨rfl, le_refl half⟩]
        exact ⟨by omega, by simp⟩
    | false =>
      by_cases hm : m < half
      · have ho : overflow = false := by
          rw [← Bool.not_eq_true]
          intro ho
          have := hbig ho
          omega
        obtain ⟨rfl, -⟩ := hmag ho
        have htest : (overflow || (true && decide (value ≥ half) &&
            !(decide (value = half) && false))) = false := by
          rw [ho]
          simp
          omega
        rw [htest, if_neg Bool.false_ne_true]
        dsimp only
        rw [if_pos rfl, if_neg Bool.false_ne_true, if_neg Bool.false_ne_true, if_pos hm,
          if_neg (by omega)]
        exact ⟨rfl, by simp⟩
      · have htest : (overflow || (true && decide (value ≥ half) &&
            !(decide (value = half) && false))) = true := by
          cases ho : overflow with
          | true => rfl
          | false =>
            obtain ⟨rfl, -⟩ := hmag ho
            simp
            omega
        rw [htest, if_pos rfl, if_pos rfl]
        dsimp only
        rw [if_neg Bool.false_ne_true, if_pos rfl, if_neg Bool.false_ne_true, if_neg hm,
          if_neg (by omega)]
        exact ⟨by omega, by simp⟩
  | false =>
    rw [Bool.false_and, Bool.false_and, Bool.or_false]
    cases ho : overflow with
    | true =>
      have := hbig ho
      rw [if_pos rfl, if_neg Bool.false_ne_true]
      dsimp only
      rw [if_neg (by simp), if_neg Bool.false_ne_true, if_neg (by omega)]
      exact ⟨by omega, by simp⟩
    | false =>
      obtain ⟨rfl, hm⟩ := hmag ho
      rw [if_neg Bool.false_ne_true]
      dsimp only
      rw [if_neg (by simp), if_neg Bool.false_ne_true, if_pos hm]
      refine ⟨?_, by simp⟩
      cases minus with
      | false => rfl
      | true =>
        rw [if_pos rfl, if_pos rfl]
        by_cases h0 : value = 0
        · subst h0
          simp
        · rw [Nat.mod_eq_of_lt (by omega), ← Int.add_emod_right, Int.emod_eq_of_lt (by omega) (by omega)]
          omega

theorem expected_ne_nil {text : List Char} {minus : Bool} (h : Expected base text minus m) :
    text ≠ [] := by
  cases h with
  | plain h =>
    obtain ⟨c, l, rfl, -⟩ := numeral_head h
    exact List.cons_ne_nil _ _
  | plus h => exact List.cons_ne_nil _ _
  | minus h => exact List.cons_ne_nil _ _

/-- after the white space and the sign, where the prefix of base 16 is read, there is one and no
digit of base 16 behind it -/
def BareHex (nptr : List Char) (base : ℕ) : Prop :=
  let t := (sign (nptr.dropWhile isSpace)).2
  Skips base t ∧ (t.drop 2).takeWhile (radixValue · < 16) = []

variable (nptr : List Char)

/-- what `_stol` returns, from the text that follows the sign -/
theorem run_eq {t : List Char} {minus : Bool} (hok : BaseOk base)
    (ht : sign (nptr.dropWhile isSpace) = (minus, t)) {b : ℕ} (hb : b = baseOf base t) :
    ∃ value overflow, Stands f.bits value overflow
        (valueOf b ((skipHex b t).takeWhile (radixValue · < b))) ∧
      f.run nptr base = ⟨(finish f.bits f.who minus value overflow).1,
        if (skipHex b t).dropWhile (radixValue · < b) = skipHex b t then nptr
          else (skipHex b t).dropWhile (radixValue · < b),
        (finish f.bits f.who minus value overflow).2⟩ := by
  have range := baseOf_range hok t
  rw [← hb] at range
  have hbits : 2 ^ 12 ≤ 2 ^ f.bits := by cases f <;> decide
  obtain ⟨hp, hstands⟩ := digitLoop_eq hbits range.1 range.2 (skipHex b t) [] 0 false stands_start
  refine ⟨_, _, hstands, ?_⟩
  rw [Function.run, stol, ht]
  dsimp only
  rw [← hb, if_neg (by omega), hp]

theorem dropWhile_eq_self {p : Char → Bool} {l : List Char} :
    l.dropWhile p = l ↔ l.takeWhile p = [] := by
  have h := congrArg List.length (List.takeWhile_append_dropWhile (p := p) (l := l))
  rw [List.length_append] at h
  constructor
  · intro e
    rw [e] at h
    exact List.length_eq_zero_iff.mp (by omega)
  · intro e
    have h := List.takeWhile_append_dropWhile (p := p) (l := l)
    rw [e] at h
    exact h

theorem stands_zero {value : ℕ} {overflow : Bool} {bits : ℕ} (h : Stands bits value overflow 0) :
    value = 0 ∧ overflow = false := by
  have ho : overflow = false := by
    rw [← Bool.not_eq_true]
    exact fun ho => absurd (h.2.1.mp ho) (Nat.not_le.mpr (Nat.two_pow_pos bits))
  exact ⟨h.2.2 ho, ho⟩

/-- the result is that of the standard, but for a prefix of base 16 before no digit -/
theorem run_standard_iff (hok : BaseOk base) :
    Standard f nptr base (f.run nptr base) ↔ ¬ BareHex nptr base := by
  obtain ⟨minus, t, ht⟩ : ∃ minus t, sign (nptr.dropWhile isSpace) = (minus, t) := ⟨_, _, rfl⟩
  have ht1 : (sign (nptr.dropWhile isSpace)).1 = minus := by rw [ht]
  have ht2 : (sign (nptr.dropWhile isSpace)).2 = t := by rw [ht]
  obtain ⟨value, overflow, hstands, hrun⟩ := run_eq f nptr hok ht rfl
  rw [hrun, BareHex, ht2]
  by_cases hnil : (skipHex (baseOf base t) t).takeWhile (radixValue · < baseOf base t) = []
  · -- nothing is taken
    rw [if_pos (dropWhile_eq_self.mpr hnil)]
    rw [hnil] at hstands
    obtain ⟨rfl, rfl⟩ := stands_zero hstands
    have hnum := finish_returns f minus hstands nptr
    have zero : (f.returns minus (valueOf (baseOf base t) [])) = (0, false) := by
      cases f <;> cases minus <;> rfl
    rw [zero] at hnum
    by_cases hs : Skips base t
    · rw [skipHex_pos hs, hs.1] at hnil
      refine iff_of_false ?_ fun h => h ⟨hs, hnil⟩
      rintro (⟨text, minus', m, hlong, happ, -⟩ | ⟨hnone, -⟩)
      · have h1 := congrArg List.length happ
        have h2 := (List.dropWhile_suffix isSpace (l := nptr)).length_le
        rw [List.length_append] at h1
        dsimp only at h1
        exact expected_ne_nil hlong.2.1 (List.length_eq_zero_iff.mp (by omega))
      · obtain ⟨m, hm, rest, hrest⟩ := numeral_zero hs
        rw [← ht2] at hrest
        obtain ⟨text, htext, happ⟩ := sign_expected hm hrest
        exact hnone ⟨text, _, m, ⟨rest, happ⟩, htext⟩
    · refine iff_of_true (Or.inr ⟨?_, hnum.1, rfl, ?_⟩) fun h => hs h.1
      · rintro ⟨text, minus', m, hp, hexp⟩
        obtain ⟨-, u, hu, hup, -⟩ := expected_sign hexp hp
        rw [ht2] at hup
        have hpre := numeral_front hok hs hu hup
        rw [skipHex_neg hs] at hnil
        rw [hnil, List.prefix_nil] at hpre
        obtain ⟨c, l, rfl, -⟩ := numeral_head hu
        exact absurd hpre (List.cons_ne_nil _ _)
      · exact fun h => absurd (hnum.2.mp h) Bool.false_ne_true
  · rw [if_neg (mt dropWhile_eq_self.mp hnil)]
    obtain ⟨pre, hpre, hnum, hcase⟩ := numeral_taken hok hnil
    have hsplit := List.takeWhile_append_dropWhile (p := (radixValue · < baseOf base t))
      (l := skipHex (baseOf base t) t)
    have happ : pre ++ (skipHex (baseOf base t) t).takeWhile (radixValue · < baseOf base t) ++
        (skipHex (baseOf base t) t).dropWhile (radixValue · < baseOf base t) =
          (sign (nptr.dropWhile isSpace)).2 := by
      rw [List.append_assoc, hsplit, ht2]
      exact hpre.symm
    obtain ⟨text, htext, hrest⟩ := sign_expected hnum happ
    have hfin := finish_returns f minus hstands
      ((skipHex (baseOf base t) t).dropWhile (radixValue · < baseOf base t))
    refine iff_of_true (Or.inl ⟨text, _, _, ⟨⟨_, hrest⟩, htext, ?_⟩, hrest, ?_, ?_⟩) ?_
    · intro text' minus' m' hp hexp
      obtain ⟨-, u, hu, hup, hlen⟩ := expected_sign hexp hp
      rw [ht2] at hup hlen
      have l1 := congrArg List.length hrest
      have l2 := congrArg List.length hpre
      have l3 := congrArg List.length hsplit
      rw [List.length_append] at l1 l2 l3
      have bound : u.length ≤ pre.length +
          ((skipHex (baseOf base t) t).takeWhile (radixValue · < baseOf base t)).length := by
        rcases hcase with ⟨rfl, hs⟩ | ⟨h2, hs⟩
        · rw [skipHex_neg hs]
          have := (numeral_front hok hs hu hup).length_le
          omega
        · rw [skipHex_pos hs, hs.1, h2]
          exact numeral_front_hex hs hu hup
      omega
    · rw [ht1]
      exact hfin.1
    · rw [ht1]
      exact hfin.2
    · rintro ⟨hs, hbare⟩
      rw [skipHex_pos hs, hs.1] at hnil
      exact hnil hbare

end

/-! ## Printing and reading back -/

/-- the digits as the table has them -/
theorem digit_facts {d : ℕ} (h : d < 36) : radixValue (digit d) = d ∧ digitValue (digit d) = some d ∧
    isSpace (digit d) = false ∧ digit d ≠ '-' ∧ digit d ≠ '+' := by
  have all : ∀ d ∈ List.range 36, radixValue (digit d) = d ∧ digitValue (digit d) = some d ∧
      isSpace (digit d) = false ∧ digit d ≠ '-' ∧ digit d ≠ '+' := by decide +kernel
  exact all d (List.mem_range.mpr h)

theorem valueOf_digits (base : ℕ) : ∀ {l : List ℕ}, (∀ d ∈ l, d < 36) →
    valueOf base (l.map digit).reverse = Nat.ofDigits base l := by
  intro l
  induction l with
  | nil => exact fun _ => rfl
  | cons d l ih =>
    intro h
    have hd := (digit_facts (h d List.mem_cons_self)).2.1
    rw [List.map_cons, List.reverse_cons, valueOf_append, hd,
      ih fun e he => h e (List.mem_cons_of_mem _ he), Nat.ofDigits_cons, Option.getD_some]
    ring

section
variable {radix : ℕ} (h2 : 2 ≤ radix) (h36 : radix ≤ 36) (value : ℕ)
include h2

theorem utoa_digit {c : Char} (hc : c ∈ utoa value radix) : ∃ d, c = digit d ∧ d < radix := by
  rw [utoa_eq h2, List.mem_reverse, List.mem_map] at hc
  obtain ⟨d, hd, rfl⟩ := hc
  exact ⟨d, rfl, digitsOf_digit h2 hd⟩

include h36

theorem valueOf_utoa : valueOf radix (utoa value radix) = value := by
  have hd : ∀ d ∈ digitsOf radix value, d < 36 := fun d hd =>
    lt_of_lt_of_le (digitsOf_digit h2 hd) h36
  rw [utoa_eq h2, valueOf_digits radix hd, ofDigits_digitsOf]

/-- the text of a number is neither white space nor a sign nor a prefix at its front, and is digits
to its end -/
theorem utoa_front : (∃ c l, utoa value radix = c :: l ∧ isSpace c = false ∧ c ≠ '-' ∧ c ≠ '+') ∧
    ¬ Skips radix (utoa value radix) ∧
    (utoa value radix).takeWhile (radixValue · < radix) = utoa value radix := by
  have hall : ∀ c ∈ utoa value radix, radixValue c < radix ∧ isSpace c = false ∧ c ≠ '-' ∧ c ≠ '+' := by
    intro c hc
    obtain ⟨d, rfl, hd⟩ := utoa_digit h2 value hc
    obtain ⟨e, -, hrest⟩ := digit_facts (lt_of_lt_of_le hd h36)
    exact ⟨by rw [e]; exact hd, hrest⟩
  refine ⟨?_, ?_, ?_⟩
  · have hne : utoa value radix ≠ [] := by
      rw [utoa_eq h2]
      simp [digitsOf_ne_nil]
    obtain ⟨c, l, e⟩ := List.exists_cons_of_ne_nil hne
    exact ⟨c, l, e, (hall c (by rw [e]; exact List.mem_cons_self)).2⟩
  · rintro ⟨hbase, hhex⟩
    obtain ⟨x, rest, hx, e⟩ := hexStr_iff.mp hhex
    rw [baseOf, if_neg (by omega)] at hbase
    subst hbase
    have hlt := (hall x (by rw [e]; exact List.mem_cons_of_mem _ List.mem_cons_self)).1
    rcases hx with rfl | rfl
    · exact absurd hlt (by decide)
    · exact absurd hlt (by decide)
  · rw [List.takeWhile_eq_self_iff]
    exact fun c hc => decide_eq_true (hall c hc).1

/-- the functions read a printed number with its sign -/
theorem run_utoa (f : Function) (minus : Bool) :
    f.number (f.run (if minus then '-' :: utoa value radix else utoa value radix) radix) =
      (f.returns minus value).1 := by
  obtain ⟨⟨c, l, e, hspace, hm, hp⟩, hskip, htake⟩ := utoa_front h2 h36 value
  have hsign : sign ((if minus then '-' :: utoa value radix else utoa value radix).dropWhile
      isSpace) = (minus, utoa value radix) := by
    cases minus with
    | true => rfl
    | false =>
      rw [if_neg Bool.false_ne_true, e, List.dropWhile_cons_of_neg (by rw [hspace]; decide), sign]
      · rintro p ⟨⟩
        exact hm rfl
      · rintro p ⟨⟩
        exact hp rfl
  have hbase : radix = baseOf radix (utoa value radix) := by rw [baseOf, if_neg (by omega)]
  obtain ⟨word, overflow, hstands, hrun⟩ := run_eq f _ (Or.inr ⟨h2, h36⟩) hsign hbase
  have hskip' : skipHex radix (utoa value radix) = utoa value radix := by
    have h := skipHex_neg hskip
    rw [← hbase] at h
    exact h
  rw [hskip', htake, valueOf_utoa h2 h36] at hstands
  rw [hrun]
  exact (finish_returns f minus hstands _).1

end

theorem strtoull_ulltoa {value radix : ℕ} (hv : value < 2 ^ 64) (h2 : 2 ≤ radix) (h36 : radix ≤ 36) :
    Function.number .strtoull (Function.run .strtoull (ulltoa value radix) radix) = value := by
  have h := run_utoa h2 h36 value .strtoull false
  rw [if_neg Bool.false_ne_true] at h
  rw [ulltoa, h]
  show (if value < 2 ^ 64 then ((value : ℤ), false) else (2 ^ 64 - 1, true)).1 = value
  rw [if_pos hv]

theorem strtoll_lltoa {value : ℤ} (h1 : -2 ^ 63 ≤ value) (h2 : value < 2 ^ 63) :
    Function.number .strtoll (Function.run .strtoll (lltoa value 10) 10) = value := by
  have h := fun n => run_utoa (show 2 ≤ 10 by decide) (show 10 ≤ 36 by decide) n .strtoll
  rw [lltoa]
  by_cases hneg : value < 0
  · have h := h (-value % 2 ^ 64).toNat true
    rw [if_pos rfl] at h
    have e : -value % 2 ^ 64 = -value := Int.emod_eq_of_lt (by omega) (by omega)
    rw [if_pos ⟨rfl, hneg⟩, ulltoa, h, e]
    show (if (-value).toNat ≤ 2 ^ 63 then (-((-value).toNat : ℤ), false) else (-2 ^ 63, true)).1 = value
    rw [if_pos (by omega)]
    show -((-value).toNat : ℤ) = value
    omega
  · have h := h (value % 2 ^ 64).toNat false
    rw [if_neg Bool.false_ne_true] at h
    have e : value % 2 ^ 64 = value := Int.emod_eq_of_lt (by omega) (by omega)
    rw [if_neg (fun h => hneg h.2), ulltoa, h, e]
    show (if value.toNat < 2 ^ 63 then ((value.toNat : ℤ), false) else (2 ^ 63 - 1, true)).1 = value
    rw [if_pos (by omega)]
    show (value.toNat : ℤ) = value
    omega

/-! ## The four functions -/

/-- every result in a base that the standard allows is the one it prescribes exactly where no prefix
of base 16 stands before no digit; what the two printing functions make is read back -/
theorem functions_standard_iff (f : Function) (nptr : List Char) {base : ℕ} (hok : BaseOk base) :
    (Standard f nptr base (f.run nptr base) ↔ ¬ BareHex nptr base) ∧
    (∀ value radix : ℕ, value < 2 ^ 64 → 2 ≤ radix → radix ≤ 36 →
      Function.number .strtoull (Function.run .strtoull (ulltoa value radix) radix) = value) ∧
    ∀ value : ℤ, -2 ^ 63 ≤ value → value < 2 ^ 63 →
      Function.number .strtoll (Function.run .strtoll (lltoa value 10) 10) = value :=
  ⟨run_standard_iff f nptr hok, fun _ _ => strtoull_ulltoa, fun _ => strtoll_lltoa⟩

/-- `strtol("0xg", &end, 0)` leaves `end` at the start of the string -/
theorem bare_prefix : ¬ Standard .strtol ['0', 'x', 'g'] 0 (Function.run .strtol ['0', 'x', 'g'] 0) := by
  rw [run_standard_iff .strtol ['0', 'x', 'g'] (Or.inl rfl), not_not]
  exact ⟨⟨rfl, rfl⟩, rfl⟩

/-- `strtoul("-12z", &end, 10)` -/
theorem minus_twelve : Standard .strtoul ['-', '1', '2', 'z'] 10
    (Function.run .strtoul ['-', '1', '2', 'z'] 10) ∧
    Function.run .strtoul ['-', '1', '2', 'z'] 10 = ⟨2 ^ 32 - 12, ['z'], none⟩ :=
  ⟨(functions_standard_iff .strtoul ['-', '1', '2', 'z'] (Or.inr (by decide))).1.mpr
    fun h => absurd h.1.1 (by decide), by decide +kernel⟩

end Strtol
