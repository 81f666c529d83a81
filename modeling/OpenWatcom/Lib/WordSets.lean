import Mathlib.Data.BitVec
import Mathlib.Data.List.Pairwise
import Mathlib.Tactic

/-!
# Sets of numbers as the bits of a row of words

Number `k` is bit `k % w` of word `k / w`.

* `isBitSet_setBit`   what a set holds after a number was put in;
* `mem_members`, `members_sorted`   the list of the members of a set;
* `meets_eq_none`   two sets share a number when a word of theirs does;
* `isBitSet_meets`   what the union of two sets holds.
-/

namespace WordSets
variable {w : Nat}

def isBitSet (s : List (BitVec w)) (k : Nat) : Bool := (s.getD (k / w) 0).getLsbD (k % w)

def setBit (s : List (BitVec w)) (k : Nat) : List (BitVec w) :=
  s.modify (k / w) fun word => word ||| 1#w <<< (k % w)

/-- the numbers of the bits of `word`, counted from `j`; the loop ends when no bit is left -/
def wordMembers : Nat → BitVec w → Nat → List Nat
  | 0, _, _ => []
  | fuel + 1, word, j =>
    if word = 0 then []
    else (if word.getLsbD 0 then [j] else []) ++ wordMembers fuel (word >>> 1) (j + 1)

def membersFrom : Nat → List (BitVec w) → List Nat
  | _, [] => []
  | i, word :: s => wordMembers w word (i * w) ++ membersFrom (i + 1) s

def members (s : List (BitVec w)) : List Nat := membersFrom 0 s

/-- the union of two sets, unless a word of one meets the word of the other -/
def meets : List (BitVec w) → List (BitVec w) → Option (List (BitVec w))
  | a :: s, b :: t => if b &&& a ≠ 0 then none else (meets s t).map fun u => (a ||| b) :: u
  | _, _ => some []

/-! ## one number -/

theorem setBit_length (s : List (BitVec w)) (k : Nat) : (setBit s k).length = s.length := by
  rw [setBit, List.length_modify]

theorem isBitSet_zeros (n k : Nat) : isBitSet (List.replicate n (0 : BitVec w)) k = false := by
  rw [isBitSet, List.getD_eq_getElem?_getD, List.getElem?_replicate]
  by_cases h : k / w < n <;> simp [h]

theorem isBitSet_nil (k : Nat) : isBitSet ([] : List (BitVec w)) k = false := by
  simp [isBitSet]

theorem isBitSet_cons_lt {word : BitVec w} {s : List (BitVec w)} {k : Nat} (h : k < w) :
    isBitSet (word :: s) k = word.getLsbD k := by
  rw [isBitSet, Nat.div_eq_of_lt h, Nat.mod_eq_of_lt h]
  rfl

theorem isBitSet_cons_add {word : BitVec w} {s : List (BitVec w)} {k : Nat} (h : 0 < w) :
    isBitSet (word :: s) (k + w) = isBitSet s k := by
  rw [isBitSet, isBitSet, Nat.add_div_right _ h, Nat.add_mod_right, List.getD_cons_succ]

theorem isBitSet_setBit {s : List (BitVec w)} {k : Nat} (h : k < s.length * w) (j : Nat) :
    isBitSet (setBit s k) j = (isBitSet s j || decide (j = k)) := by
  have hw : 0 < w := Nat.pos_of_ne_zero (right_ne_zero_of_mul (by omega : s.length * w ≠ 0))
  have hk : k / w < s.length := (Nat.div_lt_iff_lt_mul hw).mpr h
  simp only [isBitSet, setBit, List.getD_eq_getElem?_getD, List.getElem?_modify]
  by_cases hjk : k / w = j / w
  · rw [← hjk, List.getElem?_eq_getElem hk]
    have hm : j % w < w := Nat.mod_lt j hw
    have hb : (1#w <<< (k % w)).getLsbD (j % w) = decide (j = k) := by
      have he : j = k ↔ j % w = k % w := by
        constructor
        · intro he
          rw [he]
        · intro he
          rw [← Nat.div_add_mod j w, ← Nat.div_add_mod k w, he, hjk]
      rw [BitVec.getLsbD_shiftLeft, BitVec.getLsbD_one]
      by_cases hlt : j % w < k % w
      · have hne : ¬ j = k := fun e => absurd (he.mp e) (Nat.ne_of_lt hlt)
        simp [hlt, hne]
      · by_cases heq : j % w = k % w
        · have hlw : k % w < w := heq ▸ hm
          simp [he.mpr heq, hlw, hw]
        · have hne : ¬ j = k := fun e => heq (he.mp e)
          have hsub : ¬ j % w - k % w = 0 := by omega
          simp [hne, hsub]
    simp [BitVec.getLsbD_or, hb]
  · have hne : ¬ j = k := fun e => hjk (by rw [e])
    simp [hjk, hne]

/-! ## the list of the members -/

theorem getLsbD_of_lt {word : BitVec w} {n i : Nat} (h : word.toNat < 2 ^ n) (hi : n ≤ i) :
    word.getLsbD i = false := by
  rw [BitVec.getLsbD]
  exact Nat.testBit_lt_two_pow (lt_of_lt_of_le h (Nat.pow_le_pow_right (by omega) hi))

theorem mem_wordMembers {fuel : Nat} {word : BitVec w} (h : word.toNat < 2 ^ fuel) (j k : Nat) :
    k ∈ wordMembers fuel word j ↔ j ≤ k ∧ word.getLsbD (k - j) = true := by
  induction fuel generalizing word j with
  | zero =>
    have h0 : word.getLsbD (k - j) = false := getLsbD_of_lt h (Nat.zero_le _)
    simp [wordMembers, h0]
  | succ n ih =>
    by_cases h0 : word = 0
    · subst h0
      simp [wordMembers]
    · have hs : (word >>> 1).toNat < 2 ^ n := by
        rw [BitVec.toNat_ushiftRight, Nat.shiftRight_eq_div_pow]
        omega
      rw [wordMembers, if_neg h0, List.mem_append, ih hs (j + 1), BitVec.getLsbD_ushiftRight]
      constructor
      · rintro (hk | ⟨hk, hb⟩)
        · by_cases hz : word.getLsbD 0
          · rw [if_pos hz, List.mem_singleton] at hk
            subst hk
            exact ⟨le_refl _, by rw [Nat.sub_self]; exact hz⟩
          · rw [if_neg hz] at hk
            exact absurd hk (by simp)
        · have he : 1 + (k - (j + 1)) = k - j := by omega
          exact ⟨by omega, he ▸ hb⟩
      · rintro ⟨hk, hb⟩
        rcases Nat.eq_or_lt_of_le hk with he | hlt
        · left
          rw [← he, Nat.sub_self] at hb
          rw [if_pos hb, he]
          exact List.mem_singleton.mpr rfl
        · right
          have he : 1 + (k - (j + 1)) = k - j := by omega
          exact ⟨hlt, he.symm ▸ hb⟩

theorem wordMembers_ge {fuel : Nat} {word : BitVec w} {j k : Nat}
    (h : k ∈ wordMembers fuel word j) : j ≤ k := by
  induction fuel generalizing word j with
  | zero => exact absurd h (by simp [wordMembers])
  | succ n ih =>
    rw [wordMembers] at h
    by_cases h0 : word = 0
    · rw [if_pos h0] at h
      exact absurd h (by simp)
    · rw [if_neg h0, List.mem_append] at h
      rcases h with h | h
      · by_cases hz : word.getLsbD 0
        · rw [if_pos hz, List.mem_singleton] at h
          omega
        · rw [if_neg hz] at h
          exact absurd h (by simp)
      · have := ih h
        omega

theorem wordMembers_sorted (fuel : Nat) (word : BitVec w) (j : Nat) :
    (wordMembers fuel word j).Pairwise (· < ·) := by
  induction fuel generalizing word j with
  | zero => exact List.Pairwise.nil
  | succ n ih =>
    rw [wordMembers]
    by_cases h0 : word = 0
    · rw [if_pos h0]
      exact List.Pairwise.nil
    · rw [if_neg h0]
      refine List.pairwise_append.mpr ⟨?_, ih _ _, ?_⟩
      · by_cases hz : word.getLsbD 0 <;> simp [hz]
      · intro a ha b hb
        have hb' := wordMembers_ge hb
        by_cases hz : word.getLsbD 0
        · rw [if_pos hz, List.mem_singleton] at ha
          omega
        · rw [if_neg hz] at ha
          exact absurd ha (by simp)

theorem mem_membersFrom (i : Nat) (s : List (BitVec w)) (k : Nat) :
    k ∈ membersFrom i s ↔ i * w ≤ k ∧ isBitSet s (k - i * w) = true := by
  induction s generalizing i with
  | nil => simp [membersFrom, isBitSet_nil]
  | cons word s ih =>
    have hw : (i + 1) * w = i * w + w := Nat.succ_mul i w
    rw [membersFrom, List.mem_append, mem_wordMembers word.isLt, ih (i + 1), hw]
    by_cases hk : k < i * w + w
    · have hno : ¬ i * w + w ≤ k := by omega
      by_cases hik : i * w ≤ k
      · rw [isBitSet_cons_lt (by omega : k - i * w < w)]
        simp [hno]
      · simp [hno, hik]
    · rcases Nat.eq_zero_or_pos w with h0 | hpos
      · subst h0
        simp [isBitSet]
      · have hbit : word.getLsbD (k - i * w) = false := BitVec.getLsbD_of_ge _ _ (by omega)
        have he : k - i * w = (k - (i * w + w)) + w := by omega
        rw [hbit, he, isBitSet_cons_add hpos]
        have h1 : i * w + w ≤ k := by omega
        have h2 : i * w ≤ k := by omega
        simp [h1, h2]

theorem mem_members (s : List (BitVec w)) (k : Nat) : k ∈ members s ↔ isBitSet s k = true := by
  rw [members, mem_membersFrom]
  simp

theorem membersFrom_sorted (i : Nat) (s : List (BitVec w)) :
    (membersFrom i s).Pairwise (· < ·) := by
  induction s generalizing i with
  | nil => exact List.Pairwise.nil
  | cons word s ih =>
    refine List.pairwise_append.mpr ⟨wordMembers_sorted w word _, ih (i + 1), ?_⟩
    intro a ha b hb
    obtain ⟨h1, h2⟩ := (mem_wordMembers word.isLt _ a).mp ha
    have hlt : a - i * w < w := BitVec.lt_of_getLsbD h2
    have hge := ((mem_membersFrom (i + 1) s b).mp hb).1
    have hw : (i + 1) * w = i * w + w := Nat.succ_mul i w
    omega

theorem members_sorted (s : List (BitVec w)) : (members s).Pairwise (· < ·) :=
  membersFrom_sorted 0 s

theorem members_nodup (s : List (BitVec w)) : (members s).Nodup :=
  (members_sorted s).imp fun h => Nat.ne_of_lt h

/-! ## two sets -/

theorem and_eq_zero_iff (a b : BitVec w) :
    b &&& a = 0 ↔ ∀ i, ¬ (a.getLsbD i = true ∧ b.getLsbD i = true) := by
  constructor
  · rintro h i ⟨ha, hb⟩
    have hi : (b &&& a).getLsbD i = true := by rw [BitVec.getLsbD_and, ha, hb]; rfl
    rw [h] at hi
    simp at hi
  · intro h
    refine BitVec.eq_of_getLsbD_eq fun i _ => ?_
    have hi := h i
    rw [BitVec.getLsbD_and]
    cases ha : a.getLsbD i <;> cases hb : b.getLsbD i <;> simp_all

theorem meets_eq_none (hw : 0 < w) {s t : List (BitVec w)} (h : s.length = t.length) :
    meets s t = none ↔ ∃ k, isBitSet s k = true ∧ isBitSet t k = true := by
  induction s generalizing t with
  | nil => simp [meets, isBitSet_nil]
  | cons a s ih =>
    cases t with
    | nil => simp at h
    | cons b t =>
      rw [meets]
      by_cases hab : b &&& a = 0
      · rw [if_neg (not_not.mpr hab), Option.map_eq_none_iff, ih (by simpa using h)]
        constructor
        · rintro ⟨k, h1, h2⟩
          exact ⟨k + w, by rw [isBitSet_cons_add hw, h1], by rw [isBitSet_cons_add hw, h2]⟩
        · rintro ⟨k, h1, h2⟩
          by_cases hk : k < w
          · rw [isBitSet_cons_lt hk] at h1 h2
            exact absurd ⟨h1, h2⟩ ((and_eq_zero_iff a b).mp hab k)
          · have he : k = (k - w) + w := by omega
            rw [he, isBitSet_cons_add hw] at h1 h2
            exact ⟨k - w, h1, h2⟩
      · rw [if_pos hab]
        have hex : ∃ i, a.getLsbD i = true ∧ b.getLsbD i = true := by
          by_contra hno
          exact hab ((and_eq_zero_iff a b).mpr fun i hi => hno ⟨i, hi⟩)
        obtain ⟨i, ha, hb⟩ := hex
        have hi : i < w := BitVec.lt_of_getLsbD ha
        refine iff_of_true rfl ⟨i, ?_, ?_⟩
        · rw [isBitSet_cons_lt hi, ha]
        · rw [isBitSet_cons_lt hi, hb]

theorem isBitSet_meets (hw : 0 < w) {s t u : List (BitVec w)} (hl : s.length = t.length)
    (h : meets s t = some u) :
    u.length = s.length ∧ ∀ k, isBitSet u k = (isBitSet s k || isBitSet t k) := by
  induction s generalizing t u with
  | nil =>
    cases t with
    | nil =>
      rw [meets] at h
      · obtain rfl := Option.some.inj h
        exact ⟨rfl, fun k => by simp [isBitSet_nil]⟩
      · simp
    | cons b t => simp at hl
  | cons a s ih =>
    cases t with
    | nil => simp at hl
    | cons b t =>
      rw [meets] at h
      by_cases hab : b &&& a = 0
      · rw [if_neg (not_not.mpr hab), Option.map_eq_some_iff] at h
        obtain ⟨v, hv, rfl⟩ := h
        obtain ⟨hlen, hbits⟩ := ih (by simpa using hl) hv
        refine ⟨by simp [hlen], fun k => ?_⟩
        by_cases hk : k < w
        · rw [isBitSet_cons_lt hk, isBitSet_cons_lt hk, isBitSet_cons_lt hk, BitVec.getLsbD_or]
        · have he : k = (k - w) + w := by omega
          rw [he, isBitSet_cons_add hw, isBitSet_cons_add hw, isBitSet_cons_add hw, hbits]
      · rw [if_pos hab] at h
        exact absurd h (by simp)

end WordSets
