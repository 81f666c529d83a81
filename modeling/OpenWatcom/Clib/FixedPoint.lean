import OpenWatcom.Clib.Xtoa

/-!
# Fixed-point numbers in decimal: `FixedPoint_Format` (prtf.c)

The value is a `T32`, a whole part of 16 bits above a fraction of 16 bits.  The digits of the
fraction come from multiplying it by ten, and the carry of the rounding walks back through the
text, so the position in the text is a pair of lists: what is before it, the nearest first, and
what is from it on.

* `fracLoop_spec`     the digits of the fraction, and what is left of it
* `roundLoop_digits`     the carry through digits, `roundLoop_decimal` through the whole text
* `fixedPointFormat_eq_iff`     the text is the rounded value, but for the least value where
  `int` has two bytes
-/

namespace FixedPoint

open Digits Xtoa

/-- `STRING( '0' ) + d` -/
def fromZero (d : ℕ) : Char := Char.ofNat ('0'.toNat + d)

/-- `++*buf` -/
def bump (c : Char) : Char := Char.ofNat (c.toNat + 1)

/-- the member `wd.lo` -/
def lo (t : UInt32) : UInt32 := t &&& 0xFFFF

/-- the member `wd.hi`, an `unsigned short`, as an `int` -/
def hiInt (int : IntSize) (t : UInt32) : ℤ :=
  match int with
  | .two => (t >>> 16).toUInt16.toInt16.toInt
  | .four => (t >>> 16).toUInt16.toNat

/-- the `for` over the precision: the digits, and the rest -/
def fracLoop : ℕ → UInt32 → List Char × UInt32
  | 0, t => ([], t)
  | n + 1, t =>
    let t := lo t * 10
    let r := fracLoop n t
    (fromZero (t >>> 16).toUInt8.toNat :: r.1, r.2)

/-- the text when the carry leaves it: a one over the first character, and the point one further.
There is no result where the code would look at what follows the text -/
def carryOut : List Char → Option (List Char)
  | [] => none
  | _ :: rest =>
    let zeros := rest.takeWhile (· = '0')
    match rest.dropWhile (· = '0') with
    | [] => some ('1' :: zeros ++ ['0'])
    | c :: rest =>
      if c = '.' then
        match rest with
        | [] => none
        | _ :: rest => some ('1' :: zeros ++ ['0', '.'] ++ rest.takeWhile (· = '0') ++ ['0'])
      else some ('1' :: zeros ++ ['0'])

/-- the loop that rounds, `buf` between the two lists; no result where it would leave the text -/
def roundLoop : List Char → List Char → Option (List Char)
  | [], rest => carryOut rest
  | c :: before, rest =>
    if c = '.' then
      match before with
      | [] => none
      | d :: before =>
        if d ≠ '9' then some (before.reverse ++ bump d :: '.' :: rest)
        else roundLoop before ('0' :: '.' :: rest)
    else if c ≠ '9' then some (before.reverse ++ bump c :: rest)
    else roundLoop before ('0' :: rest)

/-- the value with its sign taken off -/
def whole (value : Int32) : UInt32 := if value < 0 then (-value).toUInt32 else value.toUInt32

/-- `FixedPoint_Format` -/
def fixedPointFormat (int : IntSize) (value : Int32) (prec : ℤ) : Option (List Char) :=
  let t := whole value
  let sign := if value < 0 then ['-'] else []
  let prec := if prec = -1 then 4 else prec
  let first := itoa int (hiInt int t) 10
  let frac := fracLoop prec.toNat t
  let text := if prec ≠ 0 then first ++ '.' :: frac.1 else first
  let t := if prec ≠ 0 then frac.2 else t
  if lo t &&& 0x8000 ≠ 0 then (roundLoop text.reverse []).map (sign ++ ·)
  else some (sign ++ text)

/-! ## What the text should be -/

/-- the number of units of `10 ^ -p` nearest to the magnitude of a value, halves away from zero -/
def nearest (p : ℕ) (value : Int32) : ℕ := ⌊(value.toInt.natAbs : ℚ) / 65536 * 10 ^ p + 1 / 2⌋₊

/-- a number of units of `10 ^ -p` in decimal, with `p` digits after the point -/
def decimalText (p units : ℕ) : List Char :=
  ((digitsOf 10 (units / 10 ^ p)).map digit).reverse ++
    (if p = 0 then [] else '.' :: ((fixed 10 p units).map digit).reverse)

/-- the sign and the rounded magnitude -/
def rounded (p : ℕ) (value : Int32) : List Char :=
  (if value < 0 then ['-'] else []) ++ decimalText p (nearest p value)

example : fixedPointFormat .four (-98305) 3 = some "-1.500".toList := by decide +kernel
example : fixedPointFormat .four 655359 2 = some "10.00".toList := by decide +kernel
example : fixedPointFormat .two (-2147483648) 4 = some "--32768.0000".toList := by decide +kernel

/-! ## Characters -/

theorem digit_facts {d : ℕ} (h : d < 10) :
    digit d = fromZero d ∧ digit d ≠ '.' ∧ (digit d = '9' ↔ d + 1 = 10) ∧
      (d + 1 ≠ 10 → bump (digit d) = digit (d + 1)) := by
  have hall : ∀ d ∈ List.range 10, digit d = fromZero d ∧ digit d ≠ '.' ∧
      (digit d = '9' ↔ d + 1 = 10) ∧ (d + 1 ≠ 10 → bump (digit d) = digit (d + 1)) := by
    decide +kernel
  exact hall d (List.mem_range.mpr h)

theorem digit_zero : digit 0 = '0' := by decide

theorem digit_one : digit 1 = '1' := by decide

/-! ## The digits of the fraction -/

theorem lo_toNat (t : UInt32) : (lo t).toNat = t.toNat % 65536 := by
  rw [lo, UInt32.toNat_and]
  exact Nat.and_two_pow_sub_one_eq_mod t.toNat 16

theorem lo_mul_ten (t : UInt32) : (lo t * 10).toNat = t.toNat % 65536 * 10 := by
  have h := Nat.mod_lt t.toNat (by omega : 65536 > 0)
  rw [UInt32.toNat_mul, lo_toNat]
  exact Nat.mod_eq_of_lt (by simp; omega)

/-- the digits of the fraction to `n` places, and the numerator of what is left -/
theorem fracLoop_spec (n : ℕ) (t : UInt32) :
    (fracLoop n t).1 =
        ((fixed 10 n (t.toNat % 65536 * 10 ^ n / 65536)).map digit).reverse ∧
      (fracLoop n t).2.toNat % 65536 = t.toNat % 65536 * 10 ^ n % 65536 := by
  induction n generalizing t with
  | zero => exact ⟨rfl, by rw [fracLoop, pow_zero, mul_one, Nat.mod_mod]⟩
  | succ n ih =>
    obtain ⟨h1, h2⟩ := ih (lo t * 10)
    have hlt := Nat.mod_lt t.toNat (by omega : 65536 > 0)
    have hten := lo_mul_ten t
    generalize t.toNat % 65536 = f at *
    rw [hten] at h1 h2
    have hq : f * 10 / 65536 < 10 := by omega
    have hb : ((lo t * 10) >>> 16).toUInt8.toNat = f * 10 / 65536 := by
      rw [UInt32.toNat_toUInt8, UInt32.toNat_shiftRight, hten, Nat.shiftRight_eq_div_pow]
      exact Nat.mod_eq_of_lt (by simp; omega)
    have hsplit : f * 10 ^ (n + 1) = f * 10 % 65536 * 10 ^ n + f * 10 / 65536 * 10 ^ n * 65536 := by
      have := Nat.div_add_mod (f * 10) 65536
      calc f * 10 ^ (n + 1) = (f * 10) * 10 ^ n := by rw [pow_succ]; ring
        _ = (65536 * (f * 10 / 65536) + f * 10 % 65536) * 10 ^ n := by rw [this]
        _ = _ := by ring
    rw [fracLoop]
    refine ⟨?_, by rw [hsplit, Nat.add_mul_mod_self_right]; exact h2⟩
    have hpos : 0 < 10 ^ n := pow_pos (by omega) n
    have hrest : f * 10 % 65536 * 10 ^ n / 65536 < 10 ^ n := by
      rw [Nat.div_lt_iff_lt_mul (by omega), mul_comm]
      exact Nat.mul_lt_mul_of_pos_left (Nat.mod_lt _ (by omega)) hpos
    rw [hsplit, Nat.add_mul_div_right _ _ (by omega), fixed_succ, fixed_add_mul (by omega),
      Nat.add_mul_div_right _ _ hpos, Nat.div_eq_of_lt hrest, Nat.zero_add, Nat.mod_eq_of_lt hq]
    show fromZero ((lo t * 10) >>> 16).toUInt8.toNat :: (fracLoop n (lo t * 10)).1 = _
    rw [hb, h1, ← (digit_facts hq).1, List.map_append, List.reverse_append]
    rfl

/-! ## The carry through the text -/

theorem roundLoop_cons {c : Char} (hc : c ≠ '.') (before rest : List Char) :
    roundLoop (c :: before) rest =
      if c ≠ '9' then some (before.reverse ++ bump c :: rest) else roundLoop before ('0' :: rest) := by
  rw [roundLoop.eq_def]
  exact if_neg hc

theorem roundLoop_point {c : Char} (hc : c ≠ '.') (before rest : List Char) :
    roundLoop ('.' :: c :: before) rest = roundLoop (c :: before) ('.' :: rest) := by
  rw [roundLoop_cons hc, roundLoop.eq_def]
  exact if_pos rfl

/-- over digits: the carry passes all of them, or the next number's digits stand there -/
theorem roundLoop_digits (l : List ℕ) (hl : ∀ d ∈ l, d < 10) (before rest : List Char) :
    ((∀ d ∈ l, d + 1 = 10) → roundLoop (l.map digit ++ before) rest =
      roundLoop before (List.replicate l.length '0' ++ rest)) ∧
    ((¬ ∀ d ∈ l, d + 1 = 10) → roundLoop (l.map digit ++ before) rest =
      some (before.reverse ++ ((incr 10 l).map digit).reverse ++ rest)) := by
  induction l generalizing rest with
  | nil => exact ⟨fun _ => rfl, fun h => absurd (fun d hd => absurd hd List.not_mem_nil) h⟩
  | cons d l ih =>
    obtain ⟨ih1, ih2⟩ := ih (fun d hd => hl d (List.mem_cons_of_mem _ hd)) ('0' :: rest)
    obtain ⟨-, hp, h9, hbump⟩ := digit_facts (hl d List.mem_cons_self)
    rw [List.map_cons, List.cons_append, roundLoop_cons hp, incr]
    by_cases hd : d + 1 = 10
    · have hall : (∀ e ∈ d :: l, e + 1 = 10) ↔ ∀ e ∈ l, e + 1 = 10 := by
        rw [List.forall_mem_cons]
        exact and_iff_right hd
      rw [if_neg (not_not.mpr (h9.mpr hd)), if_pos hd, hall]
      constructor
      · intro h
        rw [ih1 h, List.length_cons, List.replicate_succ', List.append_assoc]
        rfl
      · intro h
        rw [ih2 h, List.map_cons, List.reverse_cons, digit_zero]
        simp only [List.append_assoc, List.cons_append, List.nil_append]
    · rw [if_pos (fun h => hd (h9.mp h)), if_neg hd]
      refine ⟨fun h => absurd (h d List.mem_cons_self) hd, fun _ => ?_⟩
      rw [hbump hd, List.map_cons, List.reverse_cons]
      simp only [List.reverse_append, List.append_assoc, List.cons_append, List.nil_append]

/-- the point and its zeros -/
def zeroFrac (p : ℕ) : List Char := if p = 0 then [] else '.' :: List.replicate p '0'

theorem all_zero (n : ℕ) : ∀ c ∈ List.replicate n '0', decide (c = '0') = true :=
  fun _ hc => decide_eq_true (List.eq_of_mem_replicate hc)

/-- the carry out of a text of nines puts a digit in front -/
theorem carryOut_zeros (k p : ℕ) :
    carryOut (List.replicate (k + 1) '0' ++ zeroFrac p) =
      some ('1' :: List.replicate (k + 1) '0' ++ zeroFrac p) := by
  rw [List.replicate_succ, List.cons_append, carryOut, zeroFrac]
  have hk := all_zero k
  by_cases hp : p = 0
  · rw [if_pos hp, List.append_nil, List.takeWhile_eq_self_iff.mpr hk,
      List.dropWhile_eq_nil_iff.mpr hk]
    show some ('1' :: List.replicate k '0' ++ ['0']) = _
    rw [List.cons_append, ← List.replicate_succ', List.append_nil, List.replicate_succ]
  · obtain ⟨q, rfl⟩ := Nat.exists_eq_succ_of_ne_zero hp
    rw [if_neg hp, List.takeWhile_append_of_pos hk, List.dropWhile_append_of_pos hk,
      List.takeWhile_cons_of_neg (by decide), List.dropWhile_cons_of_neg (by decide)]
    show some ('1' :: (List.replicate k '0' ++ []) ++ ['0', '.'] ++
      (List.replicate q '0').takeWhile (· = '0') ++ ['0']) = _
    have hturn : '0' :: List.replicate k '0' = List.replicate k '0' ++ ['0'] := by
      rw [← List.replicate_succ, List.replicate_succ']
    rw [List.takeWhile_eq_self_iff.mpr (all_zero q), List.append_nil, List.replicate_succ', hturn]
    simp only [List.append_assoc, List.cons_append, List.nil_append]

/-- the carry that reaches the whole part -/
theorem roundLoop_whole (n p : ℕ) :
    roundLoop ((digitsOf 10 n).map digit) (zeroFrac p) =
      some (((digitsOf 10 (n + 1)).map digit).reverse ++ zeroFrac p) := by
  have hdig : ∀ d ∈ digitsOf 10 n, d < 10 := fun d hd => digitsOf_digit (by omega) hd
  obtain ⟨h1, h2⟩ := roundLoop_digits (digitsOf 10 n) hdig [] (zeroFrac p)
  rw [List.append_nil] at h1 h2
  rw [← incr_digitsOf (by omega)]
  by_cases hall : ∀ d ∈ digitsOf 10 n, d + 1 = 10
  · obtain ⟨k, hk⟩ := Nat.exists_eq_succ_of_ne_zero
      (fun h => digitsOf_ne_nil 10 n (List.length_eq_zero_iff.mp h))
    rw [h1 hall, incr_turned hall, hk, roundLoop, carryOut_zeros, List.map_append,
      List.reverse_append, List.map_replicate, List.reverse_replicate, digit_zero]
    rfl
  · rw [h2 hall]
    rfl

theorem decimalText_zero (units : ℕ) :
    decimalText 0 units = ((digitsOf 10 units).map digit).reverse := by
  rw [decimalText, if_pos rfl, pow_zero, Nat.div_one, List.append_nil]

theorem decimalText_pos {p : ℕ} (hp : p ≠ 0) (units : ℕ) :
    decimalText p units = ((digitsOf 10 (units / 10 ^ p)).map digit).reverse ++
      '.' :: ((fixed 10 p units).map digit).reverse := by
  rw [decimalText, if_neg hp]

/-- the rounded text is that of the next number -/
theorem roundLoop_decimal (p units : ℕ) :
    roundLoop (decimalText p units).reverse [] = some (decimalText p (units + 1)) := by
  by_cases hp : p = 0
  · rw [hp, decimalText_zero, decimalText_zero, List.reverse_reverse]
    have := roundLoop_whole units 0
    rwa [zeroFrac, if_pos rfl, List.append_nil] at this
  · rw [decimalText_pos hp, decimalText_pos hp, List.reverse_append, List.reverse_cons,
      List.reverse_reverse, List.reverse_reverse, List.append_assoc]
    have hdig : ∀ d ∈ fixed 10 p units, d < 10 := fun d hd => fixed_digit (by omega) hd
    obtain ⟨h1, h2⟩ := roundLoop_digits (fixed 10 p units) hdig
      (['.'] ++ (digitsOf 10 (units / 10 ^ p)).map digit) []
    obtain ⟨hturn, hstay⟩ := incr_fixed (b := 10) (by omega) p units
    by_cases hall : ∀ d ∈ fixed 10 p units, d + 1 = 10
    · have hw := roundLoop_whole (units / 10 ^ p) p
      rw [zeroFrac, if_neg hp] at hw
      rw [h1 hall, (hturn hall).1, (hturn hall).2, fixed_length, List.append_nil, List.map_replicate,
        List.reverse_replicate, digit_zero, ← hw]
      have hne : (digitsOf 10 (units / 10 ^ p)).map digit ≠ [] :=
        fun h => digitsOf_ne_nil 10 _ (List.map_eq_nil_iff.mp h)
      have hpt : ∀ c ∈ (digitsOf 10 (units / 10 ^ p)).map digit, c ≠ '.' := by
        intro c hc
        obtain ⟨d, hd, rfl⟩ := List.mem_map.mp hc
        exact (digit_facts (digitsOf_digit (by omega) hd)).2.1
      -- the step back over the point
      cases hl : (digitsOf 10 (units / 10 ^ p)).map digit with
      | nil => exact absurd hl hne
      | cons c l => exact roundLoop_point (hpt c (by rw [hl]; exact List.mem_cons_self)) l _
    · rw [h2 hall, (hstay hall).1, (hstay hall).2, List.append_nil, List.reverse_append,
        List.append_assoc]
      rfl

/-! ## The value -/

theorem whole_toNat (value : Int32) : (whole value).toNat = value.toInt.natAbs := by
  have hi : value.toInt = if 2 * value.toBitVec.toNat < 2 ^ 32 then (value.toBitVec.toNat : ℤ)
      else (value.toBitVec.toNat : ℤ) - 2 ^ 32 := BitVec.toInt_eq_toNat_cond value.toBitVec
  have hlt : value.toBitVec.toNat < 2 ^ 32 := value.toBitVec.isLt
  by_cases h : value < 0
  · have hn : (whole value).toNat = (2 ^ 32 - value.toBitVec.toNat) % 2 ^ 32 := by
      rw [whole, if_pos h]
      exact BitVec.toNat_neg value.toBitVec
    have h0 : value.toInt < 0 := Int32.lt_iff_toInt_lt.mp h
    split_ifs at hi <;> omega
  · have hn : (whole value).toNat = value.toBitVec.toNat := by
      rw [whole, if_neg h]
      rfl
    have h0 : ¬ value.toInt < 0 := fun hc => h (Int32.lt_iff_toInt_lt.mpr hc)
    split_ifs at hi <;> omega

/-- the units below a magnitude -/
def unitsBelow (p m : ℕ) : ℕ := m * 10 ^ p / 65536

theorem nearest_eq (p : ℕ) (value : Int32) :
    nearest p value = unitsBelow p value.toInt.natAbs +
      (if 32768 ≤ value.toInt.natAbs * 10 ^ p % 65536 then 1 else 0) := by
  generalize hm : value.toInt.natAbs = m
  have hq : (m : ℚ) / 65536 * 10 ^ p + 1 / 2 = ((m * 10 ^ p + 32768 : ℕ) : ℚ) / (65536 : ℕ) := by
    push_cast
    ring
  rw [nearest, hm, hq, Nat.floor_div_eq_div, unitsBelow]
  by_cases h : 32768 ≤ m * 10 ^ p % 65536
  · rw [if_pos h]
    omega
  · rw [if_neg h]
    omega

theorem decimalText_split (p m : ℕ) :
    decimalText p (unitsBelow p m) = ((digitsOf 10 (m / 65536)).map digit).reverse ++
      (if p = 0 then [] else
        '.' :: ((fixed 10 p (m % 65536 * 10 ^ p / 65536)).map digit).reverse) := by
  have hpos : 0 < 10 ^ p := pow_pos (by omega) p
  have hhi : unitsBelow p m / 10 ^ p = m / 65536 := by
    rw [unitsBelow, Nat.div_div_eq_div_mul, Nat.mul_div_mul_right _ _ hpos]
  have hlo : unitsBelow p m = m % 65536 * 10 ^ p / 65536 + m / 65536 * 10 ^ p := by
    have hm : m * 10 ^ p = m % 65536 * 10 ^ p + m / 65536 * 10 ^ p * 65536 := by
      have := Nat.mod_add_div m 65536
      calc m * 10 ^ p = (m % 65536 + 65536 * (m / 65536)) * 10 ^ p := by rw [this]
        _ = _ := by ring
    rw [unitsBelow, hm, Nat.add_mul_div_right _ _ (by omega)]
  rw [decimalText, hhi, hlo, fixed_add_mul (by omega)]

theorem and_two_pow_eq_zero (x i : ℕ) : x &&& 2 ^ i = 0 ↔ x.testBit i = false := by
  constructor
  · intro h
    have hb : (x &&& 2 ^ i).testBit i = false := by rw [h, Nat.zero_testBit]
    rwa [Nat.testBit_and, Nat.testBit_two_pow_self, Bool.and_true] at hb
  · intro h
    apply Nat.eq_of_testBit_eq
    intro j
    rw [Nat.testBit_and, Nat.testBit_two_pow, Nat.zero_testBit]
    by_cases hj : i = j
    · rw [← hj, h, Bool.false_and]
    · rw [decide_eq_false hj, Bool.and_false]

theorem round_bit (t : UInt32) : lo t &&& 0x8000 ≠ 0 ↔ 32768 ≤ t.toNat % 65536 := by
  have hlt := Nat.mod_lt t.toNat (by omega : 65536 > 0)
  have h0 : lo t &&& 0x8000 = 0 ↔ t.toNat % 65536 &&& 2 ^ 15 = 0 := by
    rw [← UInt32.toNat_inj, UInt32.toNat_and, lo_toNat]
    rfl
  rw [ne_eq, h0, and_two_pow_eq_zero, Nat.testBit_eq_decide_div_mod_eq, decide_eq_false_iff_not]
  omega

/-- the text before the rounding -/
theorem text_eq {p m : ℕ} {t : UInt32} (ht : t.toNat = m) :
    (if (p : ℤ) ≠ 0 then ((digitsOf 10 (m / 65536)).map digit).reverse ++ '.' :: (fracLoop p t).1
      else ((digitsOf 10 (m / 65536)).map digit).reverse) = decimalText p (unitsBelow p m) := by
  rw [decimalText_split]
  by_cases hp : p = 0
  · rw [if_neg (by omega), if_pos hp, List.append_nil]
  · rw [if_pos (by omega), if_neg hp, (fracLoop_spec p t).1, ht]

/-- what is left of the fraction decides the rounding -/
theorem rest_eq {p m : ℕ} {t : UInt32} (ht : t.toNat = m) :
    (if (p : ℤ) ≠ 0 then (fracLoop p t).2 else t).toNat % 65536 = m * 10 ^ p % 65536 := by
  by_cases hp : p = 0
  · rw [if_neg (by omega), hp, pow_zero, mul_one, ht]
  · rw [if_pos (by omega), (fracLoop_spec p t).2, ht, Nat.mod_mul_mod]

theorem itoa_natCast (int : IntSize) {n : ℕ} (hn : n < 65536) :
    itoa int n 10 = ((digitsOf 10 n).map digit).reverse := by
  have hbits : 65536 ≤ 2 ^ int.bits := by cases int <;> decide
  have hmod : ((n : ℤ) % 2 ^ int.bits).toNat = n := by
    have : (n : ℤ) % 2 ^ int.bits = n := Int.emod_eq_of_lt (by omega) (by exact_mod_cast (by omega))
    rw [this, Int.toNat_natCast]
  rw [itoa, if_neg (by omega), hmod, utoa_eq (by omega)]

theorem magnitude_lt (value : Int32) : value.toInt.natAbs / 65536 < 65536 := by
  have h := (whole value).toNat_lt
  rw [whole_toNat] at h
  omega

/-- a whole part that the conversion to `int` keeps is written right -/
theorem fixedPointFormat_eq {int : IntSize} {value : Int32} (p : ℕ)
    (h : hiInt int (whole value) = (value.toInt.natAbs / 65536 : ℕ)) :
    fixedPointFormat int value p = some (rounded p value) := by
  have ht := whole_toNat value
  have hp1 : (p : ℤ) ≠ -1 := by omega
  have hfirst := itoa_natCast int (magnitude_lt value)
  rw [← h] at hfirst
  unfold fixedPointFormat
  dsimp only
  rw [if_neg hp1, Int.toNat_natCast, hfirst, text_eq ht, rounded, nearest_eq]
  simp only [round_bit, rest_eq ht]
  by_cases hr : 32768 ≤ value.toInt.natAbs * 10 ^ p % 65536
  · rw [if_pos hr, if_pos hr, roundLoop_decimal]
    rfl
  · rw [if_neg hr, if_neg hr, Nat.add_zero]

/-! ## The conversion of the whole part -/

theorem hi_toNat (t : UInt32) : (t >>> 16).toUInt16.toNat = t.toNat / 65536 := by
  have := t.toNat_lt
  rw [UInt32.toNat_toUInt16, UInt32.toNat_shiftRight, Nat.shiftRight_eq_div_pow]
  exact Nat.mod_eq_of_lt (by simp; omega)

theorem hiInt_four (value : Int32) :
    hiInt .four (whole value) = (value.toInt.natAbs / 65536 : ℕ) := by
  show ((whole value >>> 16).toUInt16.toNat : ℤ) = _
  rw [hi_toNat, whole_toNat]

theorem hiInt_two {value : Int32} (h : value ≠ Int32.minValue) :
    hiInt .two (whole value) = (value.toInt.natAbs / 65536 : ℕ) := by
  have hne : value.toInt ≠ -2147483648 := fun hc => h (Int32.toInt_inj.mp hc)
  have hlo := value.minValue_le_toInt
  have hhi := value.toInt_lt
  have hsmall : value.toInt.natAbs / 65536 < 32768 := by
    simp at hlo
    omega
  have hn : (whole value >>> 16).toUInt16.toNat = value.toInt.natAbs / 65536 := by
    rw [hi_toNat, whole_toNat]
  have hc : hiInt .two (whole value) = if 2 * (whole value >>> 16).toUInt16.toNat < 2 ^ 16
      then ((whole value >>> 16).toUInt16.toNat : ℤ)
      else ((whole value >>> 16).toUInt16.toNat : ℤ) - 2 ^ 16 :=
    BitVec.toInt_eq_toNat_cond (whole value >>> 16).toUInt16.toBitVec
  rw [hc, hn, if_pos (by omega)]

/-- the least value has two signs where `int` has two bytes -/
theorem fixedPointFormat_least (p : ℕ) : ∃ text,
    fixedPointFormat .two Int32.minValue p = some ('-' :: '-' :: text) := by
  have hp1 : (p : ℤ) ≠ -1 := by omega
  have hw : (whole Int32.minValue).toNat = 65536 * 32768 := by decide +kernel
  have hfirst : itoa .two (hiInt .two (whole Int32.minValue)) 10 = "-32768".toList := by
    decide +kernel
  have hr : ¬ 32768 ≤ 65536 * 32768 * 10 ^ p % 65536 := by
    rw [mul_assoc, Nat.mul_mod_right]
    omega
  unfold fixedPointFormat
  dsimp only
  rw [if_neg hp1, Int.toNat_natCast, hfirst, if_pos (by decide : Int32.minValue < 0)]
  simp only [round_bit, rest_eq hw]
  rw [if_neg hr]
  by_cases hp : (p : ℤ) ≠ 0
  · rw [if_pos hp]
    exact ⟨_, rfl⟩
  · rw [if_neg hp]
    exact ⟨_, rfl⟩

theorem rounded_head (p : ℕ) (value : Int32) (text : List Char) :
    rounded p value ≠ '-' :: '-' :: text := by
  -- a text of digits begins with one
  have hhead : ∀ c ∈ (decimalText p (nearest p value)).head?, c ≠ '-' := by
    have hne : ((digitsOf 10 (nearest p value / 10 ^ p)).map digit).reverse ≠ [] := fun h =>
      digitsOf_ne_nil 10 _ (List.map_eq_nil_iff.mp (List.reverse_eq_nil_iff.mp h))
    intro c hc
    rw [decimalText, List.head?_append_of_ne_nil _ hne] at hc
    obtain ⟨d, hd, rfl⟩ := List.mem_map.mp (List.mem_reverse.mp (List.mem_of_mem_head? hc))
    have hlt := digitsOf_digit (by omega) hd
    intro h
    have h' : digit d = '-' := h
    have hall : ∀ d ∈ List.range 10, digit d ≠ '-' := by decide
    exact hall d (List.mem_range.mpr hlt) h'
  intro h
  rw [rounded] at h
  by_cases hv : value < 0
  · rw [if_pos hv] at h
    have h' : decimalText p (nearest p value) = '-' :: text := (List.cons.inj h).2
    rw [h'] at hhead
    exact hhead '-' rfl rfl
  · rw [if_neg hv, List.nil_append] at h
    rw [h] at hhead
    exact hhead '-' rfl rfl

/-- the text is the rounded value, but for the least value where `int` has two bytes -/
theorem fixedPointFormat_eq_iff (int : IntSize) (value : Int32) (p : ℕ) :
    fixedPointFormat int value p = some (rounded p value) ↔
      ¬ (int = .two ∧ value = Int32.minValue) := by
  constructor
  · rintro h ⟨rfl, rfl⟩
    obtain ⟨text, ht⟩ := fixedPointFormat_least p
    rw [ht] at h
    exact rounded_head p _ text (Option.some.inj h).symm
  · intro h
    apply fixedPointFormat_eq
    cases int with
    | four => exact hiInt_four value
    | two => exact hiInt_two fun hv => h ⟨rfl, hv⟩

/-- the least value on a 16-bit target -/
theorem least_two_signs : fixedPointFormat .two Int32.minValue 4 = some "--32768.0000".toList ∧
    rounded 4 Int32.minValue = "-32768.0000".toList ∧
    fixedPointFormat .two Int32.minValue 4 ≠ some (rounded 4 Int32.minValue) := by
  have hn : nearest 4 Int32.minValue = 327680000 := by
    rw [nearest_eq]
    decide +kernel
  have hf : fixedPointFormat .two Int32.minValue 4 = some "--32768.0000".toList := by decide +kernel
  have hr : rounded 4 Int32.minValue = "-32768.0000".toList := by
    rw [rounded, hn]
    decide +kernel
  refine ⟨hf, hr, ?_⟩
  rw [hf, hr]
  decide +kernel

end FixedPoint
