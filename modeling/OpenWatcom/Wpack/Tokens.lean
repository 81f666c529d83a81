import OpenWatcom.Wpack.FirstPass

/-!
# The literals and copies of a file: `encode.c`

* `Describes`     a token says what stands at a place of the file
* `Longest`     no earlier place that the buffer still has begins with more of what follows
* `Parses`     tokens that together say the file, each of them the longest
* `firstPass_parses`     the first pass divides each file that is not empty so
-/

namespace Wpack

open SearchTrees LinkedTrees

def Token.length : Token → ℕ
  | .literal _ => 1
  | .copy length _ => length

/-- what a token says of the file at `a` -/
def Describes (data : List UInt8) (a : ℕ) : Token → Prop
  | .literal c => data[a]? = some c
  | .copy length position => threshold < length ∧ length ≤ laheadSize ∧ a + length ≤ data.length ∧
      position.toNat < 4036 ∧
      ∀ i < length, stream data (a + 4036 - (position.toNat + 1) + i) = stream data (a + 4036 + i)

def Longest (data : List UInt8) (a length : ℕ) : Prop :=
  ∀ j < a, a ≤ j + 4036 → ∀ m ≤ laheadSize, a + m ≤ data.length → (∀ i < m, data[j + i]? = data[a + i]?) →
    m ≤ max length threshold

def Parses (data : List UInt8) : ℕ → List Token → Prop
  | a, [] => a = data.length
  | a, t :: tokens => Describes data a t ∧ Longest data a t.length ∧ Parses data (a + t.length) tokens

section
variable {data : List UInt8} {a w : ℕ} {e : Coder}

/-! ## the loops of a turn -/

theorem readLoop_encoding (left : ℕ) : ∀ {a : ℕ} {e : Coder}, Encoding data a w e →
    ∃ i e', i ≤ left ∧ readLoop left e = some (left - i, e') ∧ Encoding data (a + i) w e' ∧
      (i < left → e'.input = []) := by
  induction left with
  | zero =>
    intro a e h
    exact ⟨0, e, le_refl _, rfl, h, fun hlt => absurd hlt (by omega)⟩
  | succ left ih =>
    intro a e h
    cases hi : e.input with
    | nil =>
      refine ⟨0, e, Nat.zero_le _, ?_, h, fun _ => hi⟩
      rw [readLoop, hi]
      rfl
    | cons c input =>
      obtain ⟨e1, he1, h1⟩ := advance_encoding h hi
      obtain ⟨i, e', hle, he', h', hend⟩ := ih h1
      refine ⟨i + 1, e', by omega, ?_, by rw [← Nat.add_assoc, Nat.add_right_comm]; exact h', fun hlt => hend (by omega)⟩
      rw [readLoop, hi]
      dsimp only
      rw [he1, Option.bind_some, he', Nat.add_sub_add_right]

theorem drainLoop_encoding (left : ℕ) : ∀ {a w : ℕ} {e : Coder}, Encoding data a w e → (0 < left → e.input = []) →
    left ≤ w → ∃ e', drainLoop left e = some e' ∧ e'.num = e.num - left ∧
      (left < w → Encoding data (a + left) (w - left) e') := by
  induction left with
  | zero =>
    intro a w e h _ _
    exact ⟨e, rfl, by omega, fun _ => h⟩
  | succ left ih =>
    intro a w e h hi hle
    obtain ⟨e1, he1, hi1, hnum1, h1⟩ := drain_encoding h (hi (Nat.succ_pos left))
    by_cases hw : 1 < w
    · obtain ⟨e', he', hnum', h'⟩ := ih (h1 hw) (fun _ => hi1) (by omega)
      refine ⟨e', ?_, by omega, fun hlt => ?_⟩
      · rw [drainLoop, he1, Option.bind_some, he']
      · have := h' (by omega)
        rwa [show a + 1 + left = a + (left + 1) by omega, show w - 1 - left = w - (left + 1) by omega] at this
    · have hleft : left = 0 := by omega
      subst hleft
      refine ⟨e1, ?_, by omega, fun hlt => absurd hlt hw⟩
      rw [drainLoop, he1, Option.bind_some, drainLoop]

/-! ## the token of a turn -/

theorem Encoding.at (h : Encoding data a w e) {j i : ℕ} (ha : a ≤ j) (hj : j ≤ a + 4036) (hi : i < w) :
    e.text (j % 4096 + i) = stream data (j + i) :=
  h.text.at ha (by omega) (lt_of_lt_of_le hi h.most)

theorem Encoding.agree (h : Encoding data a w e) {j m : ℕ} (ha : a ≤ j) (hj : j ≤ a + 4036) (hm : m ≤ w) :
    Agree m (stringAt e.text ((a + 4036) % 4096)) (stringAt e.text (j % 4096)) ↔
      ∀ i < m, stream data (j + i) = stream data (a + 4036 + i) := by
  rw [agree_iff (le_trans hm h.most)]
  refine forall₂_congr fun i hi => ?_
  rw [h.at ha hj (by omega), h.at (Nat.le_add_right a 4036) (le_refl _) (by omega)]
  exact eq_comm

/-- the length that is written for a match -/
def clipped (w length : ℕ) : ℕ := if min length w ≤ threshold then 1 else min length w

theorem turn_length (h : Encoding data a w e) :
    (if e.num < e.nodes.matchLength then e.num.toNat else e.nodes.matchLength) = min e.nodes.matchLength w := by
  rw [h.num]
  split <;> omega

theorem Encoding.longest (h : Encoding data a w e) : Longest data a (clipped w e.nodes.matchLength) := by
  intro j hj hw m hm hend heq
  have hmw : m ≤ w := by
    by_contra hgt
    have hne : e.input ≠ [] := by
      rw [h.input]
      intro hnil
      have := List.drop_eq_nil_iff.mp hnil
      omega
    have hfull := h.full hne
    have hm' : m ≤ 60 := hm
    omega
  have hl := h.matched.longest (j + 4036) (by omega) (by omega) (by omega) (Or.inl (by omega)) m hm
    ((h.agree (by omega) (by omega) hmw).mpr fun i hi => by
      rw [Nat.add_right_comm, stream_add, Nat.add_right_comm, stream_add, List.getD_eq_getElem?_getD,
        List.getD_eq_getElem?_getD, heq i hi])
  rw [clipped]
  have ht : threshold = 2 := rfl
  rw [ht] at hl ⊢
  split <;> omega

theorem Encoding.describes_literal (h : Encoding data a w e) : Describes data a (.literal (e.text e.r)) := by
  have hlt : a < data.length := by
    have h1 := h.some
    have h2 := h.length
    omega
  have hat := h.at (Nat.le_add_right a 4036) (le_refl _) h.some
  rw [Nat.add_zero, Nat.add_zero, stream_add, List.getD_eq_getElem _ _ hlt] at hat
  rw [Describes, h.r, hat, List.getElem?_eq_getElem hlt]

theorem distance_toNat {r p : ℕ} (hr : r < 4096) (hp : p < 4096) (h : r ≠ p) :
    (distance r p).toNat = (r + 4096 - p) % 4096 - 1 := by
  have hand : ((UInt32.ofNat r - UInt32.ofNat p) &&& 4095).toNat = (r + 4096 - p) % 4096 := by
    rw [UInt32.toNat_and, UInt32.toNat_sub, show (4095 : UInt32).toNat = 2 ^ 12 - 1 from rfl,
      Nat.and_two_pow_sub_one_eq_mod, UInt32.toNat_ofNat', UInt32.toNat_ofNat']
    omega
  rw [distance, UInt32.toNat_sub_of_le, hand]
  · rfl
  · rw [UInt32.le_iff_toNat_le, hand]
    show 1 ≤ _
    omega

theorem Encoding.describes_copy (h : Encoding data a w e) (hl : threshold < min e.nodes.matchLength w) :
    Describes data a (.copy (min e.nodes.matchLength w) e.nodes.matchPosition) := by
  have hlen := h.length
  obtain h0 | ⟨-, hmost, y, ⟨j, h1, -, h3, hy⟩, hpos, hagree⟩ := h.matched.real
  · rw [h0] at hl
    exact absurd hl (by simp)
  · have hdist : e.nodes.matchPosition.toNat = a + 4036 - j - 1 := by
      rw [hpos, hy, distance_toNat (by omega) (by omega) (by omega)]
      omega
    refine ⟨hl, le_trans (min_le_left _ _) hmost, by omega, by omega, ?_⟩
    rw [hdist, show a + 4036 - (a + 4036 - j - 1 + 1) = j by omega]
    refine (h.agree h1 (by omega) (min_le_right _ _)).mp fun i hi => ?_
    rw [← hy]
    exact hagree i (lt_of_lt_of_le hi (min_le_left _ _))

/-- the bytes of a token are read, or drained where the file ends -/
theorem slide_encoding (h : Encoding data a w e) (length : ℕ) (hl : length ≤ w) (hpos : 0 < length) :
    ∃ e', ((readLoop length e).bind fun r => drainLoop r.1 r.2) = some e' ∧
      (¬ 0 < e'.num → a + length = data.length) ∧ (0 < e'.num → ∃ w', Encoding data (a + length) w' e') := by
  obtain ⟨i, e1, hle, he1, h1, hend⟩ := readLoop_encoding length h
  obtain ⟨e2, he2, hnum, h2⟩ := drainLoop_encoding (length - i) h1 (fun hlt => hend (by omega)) (by omega)
  have hn := h1.num
  refine ⟨e2, ?_, fun hz => ?_, fun hz => ?_⟩
  · rw [he1, Option.bind_some]
    exact he2
  · have hnil : data.drop (a + i + w) = [] := by
      rw [← h1.input]
      exact hend (by omega)
    have hge := List.drop_eq_nil_iff.mp hnil
    have hle := h1.length
    omega
  · have := h2 (by omega)
    rw [show a + i + (length - i) = a + length by omega] at this
    exact ⟨_, this⟩

theorem turn_encoding (h : Encoding data a w e) :
    ∃ t e', turn e = some (t, e') ∧ Describes data a t ∧ Longest data a t.length ∧
      (¬ 0 < e'.num → a + t.length = data.length) ∧ (0 < e'.num → ∃ w', Encoding data (a + t.length) w' e') := by
  have hlong := h.longest
  have hsome := h.some
  rw [turn, turn_length h]
  by_cases hl : min e.nodes.matchLength w ≤ threshold
  · obtain ⟨e', he', hend, hgo⟩ := slide_encoding h 1 hsome Nat.one_pos
    rw [clipped, if_pos hl] at hlong
    refine ⟨.literal (e.text e.r), e', ?_, h.describes_literal, hlong, hend, hgo⟩
    rw [if_pos hl, if_pos hl]
    obtain ⟨r, hr, hd⟩ := Option.bind_eq_some_iff.mp he'
    rw [hr, Option.bind_some, hd]
    rfl
  · obtain ⟨e', he', hend, hgo⟩ := slide_encoding h (min e.nodes.matchLength w) (min_le_right _ _) (by omega)
    rw [clipped, if_neg hl] at hlong
    refine ⟨.copy (min e.nodes.matchLength w) e.nodes.matchPosition, e', ?_, h.describes_copy (not_le.mp hl), hlong,
      hend, hgo⟩
    rw [if_neg hl, if_neg hl]
    obtain ⟨r, hr, hd⟩ := Option.bind_eq_some_iff.mp he'
    rw [hr, Option.bind_some, hd]
    rfl

theorem Describes.length_pos {t : Token} (h : Describes data a t) : 0 < t.length := by
  cases t with
  | literal c => exact Nat.one_pos
  | copy length position => exact Nat.zero_lt_of_lt h.1

theorem Describes.lt {t : Token} (h : Describes data a t) : a < data.length := by
  cases t with
  | literal c => exact (List.getElem?_eq_some_iff.mp h).1
  | copy length position =>
    have h1 : threshold < length := h.1
    have h2 := h.2.2.1
    omega

theorem encodeLoop_parses {fuel : ℕ} : ∀ {a w : ℕ} {e : Coder}, Encoding data a w e → data.length < a + fuel →
    ∃ tokens, encodeLoop fuel e = some tokens ∧ Parses data a tokens := by
  induction fuel with
  | zero =>
    intro a w e h hf
    have h1 := h.length
    have h2 := h.some
    omega
  | succ fuel ih =>
    intro a w e h hf
    obtain ⟨t, e', ht, hd, hl, hend, hgo⟩ := turn_encoding h
    have hpos := hd.length_pos
    rw [encodeLoop, ht, Option.bind_some]
    by_cases hn : 0 < e'.num
    · obtain ⟨w', h'⟩ := hgo hn
      obtain ⟨tokens, htokens, hp⟩ := ih h' (by omega)
      rw [if_pos hn, htokens]
      exact ⟨t :: tokens, rfl, hd, hl, hp⟩
    · rw [if_neg hn]
      exact ⟨[t], rfl, hd, hl, hend hn⟩

/-- whatever an earlier file has left in the buffer, the first pass divides a file that is not empty into
tokens that say it, and each of them is the longest -/
theorem firstPass_parses (text : ℕ → UInt8) (nodes : Nodes) (hd : data ≠ []) {fuel : ℕ} (hf : data.length < fuel) :
    ∃ tokens, firstPass fuel text nodes data = some tokens ∧ Parses data 0 tokens := by
  obtain ⟨e, w, he, h⟩ := start_encoding text nodes hd
  rw [firstPass, he, Option.bind_some]
  exact encodeLoop_parses h (by omega)

/-- four equal bytes, and a buffer that is empty -/
theorem firstPass_parses_four : ∃ tokens, firstPass 5 (fun _ => 0) ⟨⟨fun _ => 0, fun _ => 0, fun _ => 0⟩, 0, 0⟩
    [97, 97, 97, 97] = some tokens ∧ Parses [97, 97, 97, 97] 0 tokens :=
  firstPass_parses _ _ (by decide) (by decide)

end

end Wpack
