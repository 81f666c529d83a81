import OpenWatcom.Lib.Stride
import OpenWatcom.X64Obj.Pass2

/-!
# What Pass 2 computes

The rewrite loop is a stride over the text (`Lib.Stride`): `Looks` are the positions it looks at,
`moved` is where such a position ends up.

* `rewriteText_fst`   the rewritten text is the concatenation of what the stops emit;
* `offsetMap_looks`, `offsetMap_operand`, `offsetMap_neg`   `offset_map` in closed form;
* `adjustLoop_eq`   the adjustment is a fold over the stops of the scan;
* `moved_sub`   positions never come closer together.
-/

namespace X64Obj
open Bytes Stride

section
variable (code : List UInt8) (fixups : List FixupRec)

/-! ## one stop of the rewrite loop -/

theorem Pattern.width_pos (p : Pattern) : 0 < p.width := by cases p <;> decide

theorem rewriteNext_forward : Forward (rewriteNext code fixups) := fun _ =>
  Nat.lt_add_of_pos_right (Pattern.width_pos _)

/-- bytes emitted for a pattern -/
def Pattern.outLen : Pattern → Nat
  | .rexMov | .rexAddSub => 3
  | .rexLea => 2
  | .pushImm32 | .pushImm8 => 19
  | .moffs => 6
  | .plain => 1

theorem emitAt_length (k : Nat) :
    (emitAt code fixups k).length = (patternAt code fixups k).outLen := by
  unfold emitAt
  cases patternAt code fixups k <;> simp [pushPairBytes, Pattern.outLen]

theorem rewriteNext_sub (k : Nat) :
    rewriteNext code fixups k - k = (patternAt code fixups k).width := by
  rw [rewriteNext]; omega

theorem emitAt_grows : Grows (rewriteNext code fixups) (emitAt code fixups) := by
  intro k
  rw [emitAt_length, rewriteNext_sub]
  cases patternAt code fixups k <;> decide

/-- a stop adds nothing exactly when no pattern begins there -/
theorem surplus_eq_zero (k : Nat) :
    surplus (rewriteNext code fixups) (emitAt code fixups) k = 0 ↔
      patternAt code fixups k = .plain := by
  rw [surplus, emitAt_length, rewriteNext_sub]
  cases patternAt code fixups k <;> decide

/-- what each pattern says about the bytes it consumes -/
theorem patternAt_cases (k : Nat) :
    (patternAt code fixups k = .rexMov ∧ k + 1 < code.length ∧
        isRexMov (byteAt code k) (byteAt code (k + 1)) = true) ∨
    (patternAt code fixups k = .rexLea ∧ k + 1 < code.length ∧
        isRexLea (byteAt code k) (byteAt code (k + 1)) = true) ∨
    (patternAt code fixups k = .rexAddSub ∧ k + 1 < code.length ∧
        isRexAddSub (byteAt code k) (byteAt code (k + 1)) = true) ∨
    (patternAt code fixups k = .pushImm32 ∧ isPushImm32 code fixups k = true) ∨
    (patternAt code fixups k = .pushImm8 ∧ isPushImm8 code fixups k = true) ∨
    (patternAt code fixups k = .moffs ∧ isMoffs code fixups k = true) ∨
    patternAt code fixups k = .plain := by
  unfold patternAt
  split
  · rename_i h; exact Or.inl ⟨rfl, h⟩
  · split
    · rename_i h; exact Or.inr (Or.inl ⟨rfl, h⟩)
    · split
      · rename_i h; exact Or.inr (Or.inr (Or.inl ⟨rfl, h⟩))
      · split
        · rename_i h; exact Or.inr (Or.inr (Or.inr (Or.inl ⟨rfl, h⟩)))
        · split
          · rename_i h; exact Or.inr (Or.inr (Or.inr (Or.inr (Or.inl ⟨rfl, h⟩))))
          · split
            · rename_i h; exact Or.inr (Or.inr (Or.inr (Or.inr (Or.inr (Or.inl ⟨rfl, h⟩)))))
            · exact Or.inr (Or.inr (Or.inr (Or.inr (Or.inr (Or.inr rfl)))))

/-- a pattern never consumes bytes past the end of the text -/
theorem rewriteNext_le (k : Nat) (h : k < code.length) : rewriteNext code fixups k ≤ code.length := by
  rw [rewriteNext]
  rcases patternAt_cases code fixups k with ⟨e, h1, _⟩ | ⟨e, h1, _⟩ | ⟨e, h1, _⟩ | ⟨e, h1⟩ |
    ⟨e, h1⟩ | ⟨e, h1⟩ | e <;> rw [e]
  · simp only [Pattern.width]; omega
  · simp only [Pattern.width]; omega
  · simp only [Pattern.width]; omega
  · simp only [isPushImm32, Bool.and_eq_true, decide_eq_true_eq] at h1
    simp only [Pattern.width]; omega
  · simp only [isPushImm8, Bool.and_eq_true, decide_eq_true_eq] at h1
    simp only [Pattern.width]; omega
  · simp only [isMoffs, Bool.and_eq_true, decide_eq_true_eq] at h1
    simp only [Pattern.width]; omega
  · simp only [Pattern.width]; omega

/-! ## the rewritten text and `offset_map` -/

/-- the rewrite loop looks at position `k` (the end of the text counts) -/
def Looks (k : Nat) : Prop := Visits (rewriteNext code fixups) k

instance (k : Nat) : Decidable (Looks code fixups k) :=
  inferInstanceAs (Decidable (Visits (rewriteNext code fixups) k))

/-- bytes inserted before position `k` -/
def insertedBefore (k : Nat) : Nat := inserted (rewriteNext code fixups) (emitAt code fixups) k

/-- where a position looked at ends up -/
def moved (k : Nat) : Nat := pos (rewriteNext code fixups) (emitAt code fixups) k

theorem looks_zero : Looks code fixups 0 := Visits.zero

theorem looks_next {k : Nat} (h : Looks code fixups k) :
    Looks code fixups (rewriteNext code fixups k) := Visits.step (rewriteNext_forward code fixups) h

theorem looks_length : Looks code fixups code.length :=
  visits_bound (rewriteNext_forward code fixups) (rewriteNext_le code fixups)

theorem moved_eq {k : Nat} (h : Looks code fixups k) :
    moved code fixups k = k + insertedBefore code fixups k :=
  pos_eq_add (rewriteNext_forward code fixups) (emitAt_grows code fixups) h

theorem moved_next {k : Nat} (h : Looks code fixups k) :
    moved code fixups (rewriteNext code fixups k)
      = moved code fixups k + (patternAt code fixups k).outLen := by
  rw [← emitAt_length]
  exact pos_next (rewriteNext_forward code fixups) h

/-- positions never come closer together -/
theorem moved_sub {a b : Nat} (ha : Looks code fixups a) (hb : Looks code fixups b) (h : a ≤ b) :
    moved code fixups a + (b - a) ≤ moved code fixups b :=
  pos_sub (rewriteNext_forward code fixups) (emitAt_grows code fixups) ha hb h

theorem insertedBefore_mono {a b : Nat} (ha : Looks code fixups a) (h : a ≤ b) :
    insertedBefore code fixups a ≤ insertedBefore code fixups b :=
  inserted_mono (rewriteNext_forward code fixups) ha h

/-- `offset_map` when the loop has come to `b` -/
def mapBelow (b x : Nat) : Int :=
  if Looks code fixups x ∧ x < b then moved code fixups x
  else if 0 < x ∧ Looks code fixups (x - 1) ∧ x - 1 < b ∧ patternAt code fixups (x - 1) = .moffs then
    moved code fixups (x - 1) + 2
  else -1

theorem not_looks_operand {j : Nat} (hj : Looks code fixups j)
    (h : patternAt code fixups j = .moffs) : ¬ Looks code fixups (j + 1) := by
  apply hj.not_between (rewriteNext_forward code fixups) (Nat.lt_succ_self j)
  rw [rewriteNext, h]
  simp only [Pattern.width]
  omega

theorem mapBelow_looks {x : Nat} (hx : Looks code fixups x) (b : Nat) :
    mapBelow code fixups b x = if x < b then (moved code fixups x : Int) else -1 := by
  have hop : ¬ (0 < x ∧ Looks code fixups (x - 1) ∧ x - 1 < b ∧
      patternAt code fixups (x - 1) = .moffs) := by
    rintro ⟨h0, h1, _, h3⟩
    have := not_looks_operand code fixups h1 h3
    rw [Nat.sub_add_cancel h0] at this
    exact this hx
  rw [mapBelow, if_neg hop]
  simp only [hx, true_and]

theorem mapBelow_not_looks {x : Nat} (hx : ¬ Looks code fixups x) (b : Nat) :
    mapBelow code fixups b x = if 0 < x ∧ Looks code fixups (x - 1) ∧ x - 1 < b ∧
        patternAt code fixups (x - 1) = .moffs then (moved code fixups (x - 1) : Int) + 2 else -1 := by
  rw [mapBelow, if_neg (fun h => hx h.1)]

/-- a position the loop looks at below the next stop is the stop `k` or lies below it -/
theorem looks_lt_next {k x : Nat} (hk : Looks code fixups k) (hx : Looks code fixups x) :
    x < rewriteNext code fixups k ↔ x < k ∨ x = k := by
  have hn := rewriteNext_forward code fixups k
  constructor
  · intro h
    by_contra hc
    exact hk.not_between (rewriteNext_forward code fixups) (by omega) h hx
  · rintro (h | h) <;> omega

theorem mapAt_mapBelow {k : Nat} (hk : Looks code fixups k) :
    mapAt code fixups (mapBelow code fixups k) k (moved code fixups k)
      = mapBelow code fixups (rewriteNext code fixups k) := by
  have hn := rewriteNext_forward code fixups k
  funext x
  by_cases hx : Looks code fixups x
  · -- a stop: its entry is written when `x = k`, and never by the operand entry
    have hne : patternAt code fixups k = .moffs → x ≠ k + 1 := by
      rintro hp rfl
      exact not_looks_operand code fixups hk hp hx
    have e : mapAt code fixups (mapBelow code fixups k) k (moved code fixups k) x
        = if x = k then (moved code fixups k : Int) else mapBelow code fixups k x := by
      unfold mapAt
      by_cases hp : patternAt code fixups k = .moffs
      · rw [if_pos hp, Function.update_of_ne (hne hp), Function.update_apply]
      · rw [if_neg hp, Function.update_apply]
    rw [e, mapBelow_looks code fixups hx, mapBelow_looks code fixups hx]
    by_cases hxk : x = k
    · rw [if_pos hxk, if_pos (by omega), hxk]
    · rw [if_neg hxk]
      simp only [looks_lt_next code fixups hk hx, hxk, or_false]
  · -- not a stop: its entry is written when it is the operand of `k`
    have hxk : x ≠ k := fun h => hx (h ▸ hk)
    rw [mapBelow_not_looks code fixups hx]
    unfold mapAt
    by_cases hp : patternAt code fixups k = .moffs
    · rw [if_pos hp, Function.update_apply, Function.update_of_ne hxk,
        mapBelow_not_looks code fixups hx]
      by_cases e : x = k + 1
      · subst e
        rw [if_pos rfl, if_pos ⟨Nat.succ_pos k, hk, hn, hp⟩]
        rfl
      · rw [if_neg e]
        apply if_congr _ rfl rfl
        constructor
        · rintro ⟨h0, h1, h2, h3⟩
          exact ⟨h0, h1, by omega, h3⟩
        · rintro ⟨h0, h1, h2, h3⟩
          have := (looks_lt_next code fixups hk h1).mp h2
          exact ⟨h0, h1, by omega, h3⟩
    · rw [if_neg hp, Function.update_of_ne hxk, mapBelow_not_looks code fixups hx]
      apply if_congr _ rfl rfl
      constructor
      · rintro ⟨h0, h1, h2, h3⟩
        exact ⟨h0, h1, by omega, h3⟩
      · rintro ⟨h0, h1, h2, h3⟩
        rcases (looks_lt_next code fixups hk h1).mp h2 with h | h
        · exact ⟨h0, h1, h, h3⟩
        · exact absurd (h ▸ h3) hp

theorem rewriteLoop_eq (f k : Nat) (hf : code.length - k ≤ f) (hk : Looks code fixups k)
    (hn : k ≤ code.length) :
    rewriteLoop code fixups f k (emit (rewriteNext code fixups) (emitAt code fixups) k)
        (mapBelow code fixups k)
      = (emit (rewriteNext code fixups) (emitAt code fixups) code.length,
          mapBelow code fixups code.length) := by
  induction f generalizing k with
  | zero =>
    have e : k = code.length := by omega
    rw [rewriteLoop, e]
  | succ f ih =>
    rw [rewriteLoop]
    have h1 := rewriteNext_forward code fixups k
    by_cases h : k < code.length
    · rw [if_pos h, ← emit_next (rewriteNext_forward code fixups) hk]
      have e : (emit (rewriteNext code fixups) (emitAt code fixups) k).length
          = moved code fixups k := rfl
      rw [e, mapAt_mapBelow code fixups hk]
      exact ih _ (by omega) (looks_next code fixups hk) (rewriteNext_le code fixups k h)
    · have e : k = code.length := by omega
      rw [if_neg h, e]

theorem mapBelow_zero : mapBelow code fixups 0 = fun _ => -1 := by
  funext x
  rw [mapBelow, if_neg (by omega), if_neg (by omega)]

/-- the rewritten text is the concatenation of what the stops emit -/
theorem rewriteText_fst :
    (rewriteText code fixups).1 = emit (rewriteNext code fixups) (emitAt code fixups) code.length := by
  have h := rewriteLoop_eq code fixups code.length 0 (Nat.le_refl _) (looks_zero code fixups)
    (Nat.zero_le _)
  have e : emit (rewriteNext code fixups) (emitAt code fixups) 0 = [] := by
    rw [emit, stops_of_le (Nat.le_refl 0)]; rfl
  rw [mapBelow_zero, e] at h
  rw [rewriteText, h]

theorem rewriteText_snd :
    (rewriteText code fixups).2 = Function.update (mapBelow code fixups code.length) code.length
      (moved code fixups code.length : Int) := by
  have h := rewriteLoop_eq code fixups code.length 0 (Nat.le_refl _) (looks_zero code fixups)
    (Nat.zero_le _)
  have e : emit (rewriteNext code fixups) (emitAt code fixups) 0 = [] := by
    rw [emit, stops_of_le (Nat.le_refl 0)]; rfl
  rw [mapBelow_zero, e] at h
  rw [rewriteText, h]
  rfl

theorem rewriteText_length : (rewriteText code fixups).1.length = moved code fixups code.length := by
  rw [rewriteText_fst]
  rfl

end

section
variable {code : List UInt8} {fixups : List FixupRec}

/-- `offset_map` of a position looked at -/
theorem offsetMap_looks {k : Nat} (hk : Looks code fixups k) (hn : k ≤ code.length) :
    (rewriteText code fixups).2 k = moved code fixups k := by
  rw [rewriteText_snd, Function.update_apply]
  by_cases e : k = code.length
  · rw [if_pos e, e]
  · rw [if_neg e, mapBelow, if_pos ⟨hk, by omega⟩]

/-- `offset_map` of the operand of a rewritten `A1`/`A3` -/
theorem offsetMap_operand {j : Nat} (hj : Looks code fixups j) (hn : j < code.length)
    (hp : patternAt code fixups j = .moffs) :
    (rewriteText code fixups).2 (j + 1) = moved code fixups j + 2 := by
  have hop := not_looks_operand code fixups hj hp
  have hne : j + 1 ≠ code.length := fun h => hop (h ▸ looks_length code fixups)
  rw [rewriteText_snd, Function.update_apply, if_neg hne, mapBelow, if_neg (fun h => hop h.1),
    if_pos ⟨Nat.succ_pos j, hj, hn, hp⟩]
  rfl

/-- `offset_map` of every other position -/
theorem offsetMap_neg {k : Nat} (hk : ¬ Looks code fixups k)
    (hop : ∀ j, k = j + 1 → Looks code fixups j → patternAt code fixups j ≠ .moffs) :
    (rewriteText code fixups).2 k = -1 := by
  have hne : k ≠ code.length := fun h => hk (h ▸ looks_length code fixups)
  rw [rewriteText_snd, Function.update_apply, if_neg hne, mapBelow, if_neg (fun h => hk h.1),
    if_neg (fun h => hop (k - 1) (by omega) h.2.1 h.2.2.2)]

/-! ### positions with an entry -/

/-- the operand of a rewritten `A1`/`A3`, which has an entry of its own -/
def IsOperand (code : List UInt8) (fixups : List FixupRec) (k : Nat) : Prop :=
  0 < k ∧ Looks code fixups (k - 1) ∧ k - 1 < code.length ∧
    patternAt code fixups (k - 1) = .moffs

/-- `offset_map` has an entry for `k` -/
def Kept (code : List UInt8) (fixups : List FixupRec) (k : Nat) : Prop :=
  Looks code fixups k ∨ IsOperand code fixups k

instance (k : Nat) : Decidable (IsOperand code fixups k) :=
  inferInstanceAs (Decidable (_ ∧ _ ∧ _ ∧ _))

instance (k : Nat) : Decidable (Kept code fixups k) := inferInstanceAs (Decidable (_ ∨ _))

/-- the entry of a kept position -/
def movedTo (code : List UInt8) (fixups : List FixupRec) (k : Nat) : Nat :=
  if Looks code fixups k then moved code fixups k else moved code fixups (k - 1) + 2

theorem movedTo_looks {k : Nat} (h : Looks code fixups k) :
    movedTo code fixups k = moved code fixups k := if_pos h

theorem IsOperand.not_looks {k : Nat} (h : IsOperand code fixups k) : ¬ Looks code fixups k := by
  have := not_looks_operand code fixups h.2.1 h.2.2.2
  rwa [Nat.sub_add_cancel h.1] at this

theorem movedTo_operand {k : Nat} (h : IsOperand code fixups k) :
    movedTo code fixups k = moved code fixups (k - 1) + 2 := if_neg h.not_looks

theorem offsetMap_kept {k : Nat} (h : Kept code fixups k) (hn : k ≤ code.length) :
    (rewriteText code fixups).2 k = movedTo code fixups k := by
  rcases h with h | h
  · rw [movedTo_looks h, offsetMap_looks h hn]
  · have e := offsetMap_operand h.2.1 h.2.2.1 h.2.2.2
    rw [Nat.sub_add_cancel h.1] at e
    rw [movedTo_operand h, e]
    push_cast
    rfl

theorem offsetMap_not_kept {k : Nat} (h : ¬ Kept code fixups k) (hn : k ≤ code.length) :
    (rewriteText code fixups).2 k = -1 := by
  apply offsetMap_neg (fun hl => h (Or.inl hl))
  rintro j rfl hj hp
  exact h (Or.inr ⟨Nat.succ_pos j, hj, hn, hp⟩)

theorem kept_iff {k : Nat} (hn : k ≤ code.length) :
    0 ≤ (rewriteText code fixups).2 k ↔ Kept code fixups k := by
  constructor
  · intro h
    by_contra hk
    rw [offsetMap_not_kept hk hn] at h
    omega
  · intro h
    rw [offsetMap_kept h hn]
    omega

theorem offsetMap_toNat {k : Nat} (h : Kept code fixups k) (hn : k ≤ code.length) :
    ((rewriteText code fixups).2 k).toNat = movedTo code fixups k := by
  rw [offsetMap_kept h hn, Int.toNat_natCast]

/-- the stop that rewrites the instruction of an operand -/
theorem IsOperand.next {k : Nat} (h : IsOperand code fixups k) :
    rewriteNext code fixups (k - 1) = k + 4 := by
  have := h.1
  rw [rewriteNext, h.2.2.2]
  simp only [Pattern.width]
  omega

theorem IsOperand.looks_next {k : Nat} (h : IsOperand code fixups k) :
    Looks code fixups (k + 4) := by
  rw [← h.next]
  exact X64Obj.looks_next code fixups h.2.1

theorem IsOperand.moved_next {k : Nat} (h : IsOperand code fixups k) :
    moved code fixups (k + 4) = movedTo code fixups k + 4 := by
  rw [movedTo_operand h, ← h.next, X64Obj.moved_next code fixups h.2.1, h.2.2.2]
  rfl

/-- the rest of an operand has no entry -/
theorem IsOperand.not_kept {a x : Nat} (ha : IsOperand code fixups a) (h1 : a < x)
    (h2 : x < a + 4) : ¬ Kept code fixups x := by
  have h0 := ha.1
  have hin : ∀ y, a ≤ y → y < a + 4 → ¬ Looks code fixups y := by
    intro y h3 h4
    apply ha.2.1.not_between (rewriteNext_forward code fixups) (by omega)
    rw [ha.next]
    exact h4
  rintro (hx | hx)
  · exact hin x h1.le h2 hx
  · exact hin (x - 1) (by omega) (by omega) hx.2.1

/-- kept positions never come closer together -/
theorem kept_sub {a b : Nat} (ha : Kept code fixups a) (hb : Kept code fixups b) (h : a ≤ b) :
    movedTo code fixups a + (b - a) ≤ movedTo code fixups b := by
  have hlo : ∀ x, Looks code fixups x → x ≤ b → moved code fixups x + (b - x) ≤ movedTo code fixups b := by
    intro x hx hxb
    rcases hb with hb | hb
    · rw [movedTo_looks hb]
      exact moved_sub code fixups hx hb hxb
    · have h1 : x ≤ b - 1 := by
        have : x ≠ b := fun e => hb.not_looks (e ▸ hx)
        omega
      have h2 := moved_sub code fixups hx hb.2.1 h1
      rw [movedTo_operand hb]
      omega
  rcases ha with ha | ha
  · rw [movedTo_looks ha]
    exact hlo a ha h
  · rcases Nat.lt_or_eq_of_le h with h | h
    · -- the next position with an entry is the end of the rewritten instruction
      have h4 : a + 4 ≤ b := by
        by_contra hc
        exact ha.not_kept h (by omega) hb
      have := hlo (a + 4) ha.looks_next h4
      rw [ha.moved_next] at this
      omega
    · rw [← h]
      omega

/-! ### bytes of the rewritten text -/

/-- the byte a stop emits at place `i` -/
theorem rewriteText_byteAt {k i : Nat} (hk : Looks code fixups k) (hn : k < code.length)
    (hi : i < (patternAt code fixups k).outLen) :
    byteAt (rewriteText code fixups).1 (moved code fixups k + i)
      = byteAt (emitAt code fixups k) i := by
  rw [rewriteText_fst, byteAt, byteAt, List.getD_eq_getElem?_getD, List.getD_eq_getElem?_getD]
  congr 1
  exact getElem?_emit (rewriteNext_forward code fixups) hk hn (by rwa [emitAt_length])

theorem byteAt_operand {k i : Nat} (h : IsOperand code fixups k) (hi : i < 4) :
    byteAt (rewriteText code fixups).1 (movedTo code fixups k + i) = byteAt code (k + i) := by
  have e := rewriteText_byteAt (i := i + 2) h.2.1 h.2.2.1 (by rw [h.2.2.2]; simp [Pattern.outLen]; omega)
  have e2 : emitAt code fixups (k - 1) = [if byteAt code (k - 1) = 0xA1 then 0x8B else 0x89, 0x05]
      ++ slice code (k - 1 + 1) 4 := by
    rw [emitAt, h.2.2.2]
  rw [movedTo_operand h, Nat.add_assoc, Nat.add_comm 2 i, e, e2, Nat.sub_add_cancel h.1,
    Nat.add_comm i 2]
  have e3 := byteAt_append_right [if byteAt code (k - 1) = 0xA1 then (0x8B : UInt8) else 0x89, 0x05]
    (slice code k 4) i
  rw [← byteAt_slice code k 4 i hi, ← e3]
  rfl

theorem emitAt_plain {k : Nat} (h : patternAt code fixups k = .plain) :
    emitAt code fixups k = [byteAt code k] := by
  rw [emitAt, h]

theorem rewriteNext_plain {k : Nat} (h : patternAt code fixups k = .plain) :
    rewriteNext code fixups k = k + 1 := by
  rw [rewriteNext, h]
  rfl

theorem moved_plain {k : Nat} (hk : Looks code fixups k) (h : patternAt code fixups k = .plain) :
    moved code fixups (k + 1) = moved code fixups k + 1 := by
  have := moved_next code fixups hk
  rw [rewriteNext_plain h, h] at this
  exact this

theorem byteAt_plain {k : Nat} (hk : Looks code fixups k) (hn : k < code.length)
    (h : patternAt code fixups k = .plain) :
    byteAt (rewriteText code fixups).1 (moved code fixups k) = byteAt code k := by
  have := rewriteText_byteAt (i := 0) hk hn (by rw [h]; decide)
  rw [Nat.add_zero, emitAt_plain h] at this
  exact this

end

/-! ## the adjustment as a fold -/

section
variable (code : List UInt8) (offsetMap : Nat → Int)

theorem relBranch_some {k : Nat} {b : Branch} (h : relBranch code k = some b) :
    0 < b.dispOff ∧ b.dispOff + b.dispSize = b.instLen ∧ (b.dispSize = 1 ∨ b.dispSize = 4) := by
  unfold relBranch at h
  dsimp only at h
  split at h
  · cases h; decide
  · split at h
    · cases h; decide
    · split at h
      · cases h; decide
      · split at h
        · cases h; decide
        · cases h

theorem scanNext_forward : Forward (scanNext code) := by
  intro k
  unfold scanNext
  split
  · rename_i b hb
    obtain ⟨h1, h2, _⟩ := relBranch_some code hb
    omega
  · exact Nat.lt_add_of_pos_right (x86InsnLen_pos code code.length k)

/-- the adjustment is a fold over the stops of the scan -/
theorem adjustLoop_eq (patched : List UInt8) :
    adjustLoop code offsetMap code.length 0 patched
      = (stops (scanNext code) code.length 0).foldl
          (fun acc k => adjustAt code offsetMap k acc) patched := by
  have key : ∀ f k acc, adjustLoop code offsetMap f k acc
      = (stopsFuel (scanNext code) code.length f k).foldl
          (fun acc k => adjustAt code offsetMap k acc) acc := by
    intro f
    induction f with
    | zero => intro k acc; rfl
    | succ f ih =>
      intro k acc
      rw [adjustLoop, stopsFuel]
      by_cases h : k < code.length
      · rw [if_pos h, if_pos h, List.foldl_cons, ih]
      · rw [if_neg h, if_neg h, List.foldl_nil]
  rw [key, stopsFuel_eq (scanNext_forward code) _ _ _ (by omega)]

/-- the round at `k` stores a displacement for the branch `b` there -/
def Writes (k : Nat) (b : Branch) : Prop :=
  Adjusts code offsetMap k b ∧ (b.dispSize = 1 →
    -128 ≤ newDisp code offsetMap k b ∧ newDisp code offsetMap k b ≤ 127)

instance (k : Nat) (b : Branch) : Decidable (Writes code offsetMap k b) :=
  inferInstanceAs (Decidable (_ ∧ _))

/-- a round stores at most one field -/
theorem adjustAt_eq (k : Nat) (patched : List UInt8) :
    adjustAt code offsetMap k patched = match relBranch code k with
      | none => patched
      | some b => if Writes code offsetMap k b then
          writeBytes patched ((offsetMap k).toNat + b.dispOff)
            (leBytes b.dispSize (ofSigned b.dispSize (newDisp code offsetMap k b)))
        else patched := by
  unfold adjustAt
  cases hb : relBranch code k with
  | none => rfl
  | some b =>
    dsimp only
    by_cases ha : Adjusts code offsetMap k b
    · rw [if_pos ha]
      rcases (relBranch_some code hb).2.2 with h1 | h4
      · rw [if_pos h1, h1]
        by_cases hd : -128 ≤ newDisp code offsetMap k b ∧ newDisp code offsetMap k b ≤ 127
        · rw [if_pos hd, if_pos ⟨ha, fun _ => hd⟩]
        · rw [if_neg hd, if_neg (fun h => hd (h.2 h1))]
      · rw [if_neg (by omega), if_pos ⟨ha, fun h => absurd h (by omega)⟩, h4]
    · rw [if_neg ha, if_neg (fun h => ha h.1)]

@[simp] theorem adjustAt_length (k : Nat) (patched : List UInt8) :
    (adjustAt code offsetMap k patched).length = patched.length := by
  rw [adjustAt_eq]
  cases relBranch code k with
  | none => rfl
  | some b =>
    dsimp only
    split
    · rw [writeBytes_length]
    · rfl

theorem foldl_adjustAt_length (l : List Nat) (patched : List UInt8) :
    (l.foldl (fun acc k => adjustAt code offsetMap k acc) patched).length = patched.length := by
  induction l generalizing patched with
  | nil => rfl
  | cons k l ih => rw [List.foldl_cons, ih, adjustAt_length]

/-- a round writes at most the displacement of the branch it stands on -/
theorem adjustAt_frame (k i : Nat) (patched : List UInt8)
    (h : ∀ b ∈ relBranch code k, Writes code offsetMap k b →
      i < (offsetMap k).toNat + b.dispOff ∨ (offsetMap k).toNat + b.instLen ≤ i) :
    byteAt (adjustAt code offsetMap k patched) i = byteAt patched i := by
  rw [adjustAt_eq]
  cases hb : relBranch code k with
  | none => rfl
  | some b =>
    dsimp only
    obtain ⟨_, hlen, _⟩ := relBranch_some code hb
    by_cases hw : Writes code offsetMap k b
    · have hi := h b hb hw
      rw [if_pos hw]
      exact writeBytes_frame _ _ _ _ (by rw [leBytes_length]; omega)
    · rw [if_neg hw]

theorem foldl_adjustAt_frame (l : List Nat) (i : Nat) (patched : List UInt8)
    (h : ∀ k ∈ l, ∀ b ∈ relBranch code k, Writes code offsetMap k b →
      i < (offsetMap k).toNat + b.dispOff ∨ (offsetMap k).toNat + b.instLen ≤ i) :
    byteAt (l.foldl (fun acc k => adjustAt code offsetMap k acc) patched) i = byteAt patched i := by
  induction l generalizing patched with
  | nil => rfl
  | cons k l ih =>
    rw [List.foldl_cons, ih _ (fun k' hk' => h k' (List.mem_cons_of_mem _ hk')),
      adjustAt_frame code offsetMap k i patched (h k List.mem_cons_self)]

end

theorem pass2_snd (code : List UInt8) (fixups : List FixupRec) :
    (pass2 code fixups).2 = (rewriteText code fixups).2 := rfl

theorem pass2_fst (code : List UInt8) (fixups : List FixupRec) :
    (pass2 code fixups).1 = (stops (scanNext code) code.length 0).foldl
      (fun acc k => adjustAt code (rewriteText code fixups).2 k acc) (rewriteText code fixups).1 :=
  adjustLoop_eq code _ _

theorem pass2_length (code : List UInt8) (fixups : List FixupRec) :
    (pass2 code fixups).1.length = moved code fixups code.length := by
  rw [pass2_fst, foldl_adjustAt_length, rewriteText_length]

/-! ## the bytes Pass 2 leaves -/

/-- the scan of the adjustment comes to position `k` -/
def Scans (code : List UInt8) (k : Nat) : Prop := Visits (scanNext code) k

instance (code : List UInt8) (k : Nat) : Decidable (Scans code k) :=
  inferInstanceAs (Decidable (Visits (scanNext code) k))

theorem adjustAt_congr (code : List UInt8) (offsetMap : Nat → Int) (k i : Nat) (p q : List UInt8)
    (hl : p.length = q.length) (h : byteAt p i = byteAt q i) :
    byteAt (adjustAt code offsetMap k p) i = byteAt (adjustAt code offsetMap k q) i := by
  have key : ∀ x (ys : List UInt8), byteAt (writeBytes p x ys) i = byteAt (writeBytes q x ys) i := by
    intro x ys
    induction ys generalizing p q x with
    | nil => exact h
    | cons y ys ih =>
      rw [writeBytes_cons, writeBytes_cons]
      apply ih
      · rw [List.length_set, List.length_set, hl]
      · by_cases e : i = x
        · subst e
          by_cases hi : i < p.length
          · rw [byteAt_set_self _ _ _ hi, byteAt_set_self _ _ _ (by omega)]
          · rw [List.set_eq_of_length_le (by omega), List.set_eq_of_length_le (by omega), h]
        · rw [byteAt_set_ne _ _ _ _ e, byteAt_set_ne _ _ _ _ e, h]
  rw [adjustAt_eq, adjustAt_eq]
  cases relBranch code k with
  | none => exact h
  | some b =>
    dsimp only
    split
    · exact key _ _
    · exact h

/-- at an output position that only the scan's stop at `s` can write, Pass 2 leaves what the
round at `s` makes of the rewritten text -/
theorem pass2_byteAt {code : List UInt8} {fixups : List FixupRec} {s i : Nat} (hs : Scans code s)
    (hn : s < code.length)
    (hpre : ∀ k b, Scans code k → k < s → relBranch code k = some b →
      Kept code fixups k → movedTo code fixups k + b.instLen ≤ i)
    (hpost : ∀ k b, Scans code k → scanNext code s ≤ k → k < code.length →
      relBranch code k = some b → Kept code fixups k → i < movedTo code fixups k + b.dispOff) :
    byteAt (pass2 code fixups).1 i
      = byteAt (adjustAt code (rewriteText code fixups).2 s (rewriteText code fixups).1) i := by
  have hf := scanNext_forward code
  rw [pass2_fst, stops_split hf hs hn.le, stops_of_lt hf hn, List.foldl_append, List.foldl_cons]
  rw [foldl_adjustAt_frame]
  · apply adjustAt_congr
    · rw [foldl_adjustAt_length]
    · apply foldl_adjustAt_frame
      intro k hk b hb hw
      obtain ⟨hv, hlt⟩ := (mem_stops_zero hf).mp hk
      have hkept := (kept_iff (by omega)).mp hw.1.2.2.1
      rw [offsetMap_toNat hkept (by omega)]
      exact Or.inr (hpre k b hv hlt hb hkept)
  · intro k hk b hb hw
    obtain ⟨hv, hle, hlt⟩ := (mem_stops hf (hs.step hf)).mp hk
    have hkept := (kept_iff hlt.le).mp hw.1.2.2.1
    rw [offsetMap_toNat hkept hlt.le]
    exact Or.inl (hpost k b hv hle hlt hb hkept)

/-- the bytes of the instruction at a stop `s` of the scan, as far as its original length reaches -/
theorem pass2_window {code : List UInt8} {fixups : List FixupRec} {s i : Nat} (hs : Scans code s)
    (hn : s < code.length) (hk : Kept code fixups s) (hi : i < scanNext code s - s) :
    byteAt (pass2 code fixups).1 (movedTo code fixups s + i)
      = byteAt (adjustAt code (rewriteText code fixups).2 s (rewriteText code fixups).1)
          (movedTo code fixups s + i) := by
  apply pass2_byteAt hs hn
  · intro k b hv hlt hb hkk
    have h1 := hv.next_le (scanNext_forward code) hs hlt
    have h2 := kept_sub hkk hk hlt.le
    rw [scanNext, hb] at h1
    dsimp only at h1
    omega
  · intro k b _ hle _ hb hkk
    have h1 := (relBranch_some code hb).1
    have h2 := scanNext_forward code s
    have h3 := kept_sub hk hkk (by omega)
    omega

end X64Obj
