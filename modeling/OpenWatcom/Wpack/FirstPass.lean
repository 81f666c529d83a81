import OpenWatcom.Wpack.StringForest

/-!
# The first pass over a file: `encode.c`

* `firstPass`     the part of `DoEncode` that divides the file into literals and copies
* `Window`     the nodes are the strings of the places behind the one that is encoded next
* `Matched`     the match is one of them, and none of them is longer
* `slide_window`     a byte further, both hold again
* `Encoding`     the state before a turn of the loop; `advance_encoding` and `drain_encoding` keep it
-/

namespace Wpack

open BinaryTree SearchTrees LinkedTrees

/-- what is written for a turn of the loop: a byte, or a length and a position -/
inductive Token where
  | literal (c : UInt8)
  | copy (length : ℕ) (position : UInt32)

structure Coder where
  text : ℕ → UInt8
  nodes : Nodes
  input : List UInt8
  s : ℕ
  r : ℕ
  num : ℤ

/-! ## the start -/

/-- the loop that fills the look-ahead, from the byte `num` on -/
def fillLoop (r : ℕ) : ℕ → ℕ → (ℕ → UInt8) → List UInt8 → (ℕ → UInt8) × List UInt8 × ℕ
  | 0, num, text, input => (text, input, num)
  | _ + 1, num, text, [] => (text, [], num)
  | left + 1, num, text, c :: input => fillLoop r left (num + 1) (Function.update text (r + num) c) input

/-- the loop that inserts the strings in front of `r` -/
def insertSpaces (text : ℕ → UInt8) (r count : ℕ) (n : Nodes) : Option Nodes :=
  (List.range' 1 count).foldlM (fun n index => insertNode text (r - index) n) n

/-- `text` and `nodes` are what an earlier file has left -/
def start (text : ℕ → UInt8) (nodes : Nodes) (data : List UInt8) : Option Coder :=
  let r := strbufSize - laheadSize
  let filled := fillLoop r laheadSize 0 (fun index => if index < r then 32 else text index) data
  (insertSpaces filled.1 r laheadSize (initTree nodes)).bind fun n =>
    (insertNode filled.1 r n).map fun n => ⟨filled.1, n, filled.2.1, 0, r, filled.2.2⟩

/-! ## the loop -/

/-- a byte goes into the buffer, and behind its end once more -/
def putByte (text : ℕ → UInt8) (s : ℕ) (c : UInt8) : ℕ → UInt8 :=
  let text := Function.update text s c
  if s < laheadSize - 1 then Function.update text (s + strbufSize) c else text

/-- a byte is read -/
def advance (c : UInt8) (e : Coder) : Option Coder :=
  (deleteNode e.s e.nodes.toLinks).bind fun k =>
    let text := putByte e.text e.s c
    let s := (e.s + 1) % strbufSize
    let r := (e.r + 1) % strbufSize
    (insertNode text r { e.nodes with toLinks := k }).map fun n => { e with text := text, nodes := n, s := s, r := r }

/-- the loop that reads on, and how many bytes it lacks at the end of the file -/
def readLoop : ℕ → Coder → Option (ℕ × Coder)
  | 0, e => some (0, e)
  | left + 1, e =>
    match e.input with
    | [] => some (left + 1, e)
    | c :: input => (advance c { e with input := input }).bind (readLoop left)

/-- no byte is left to be read -/
def drain (e : Coder) : Option Coder :=
  (deleteNode e.s e.nodes.toLinks).bind fun k =>
    let n := { e.nodes with toLinks := k }
    let s := (e.s + 1) % strbufSize
    let r := (e.r + 1) % strbufSize
    let num := e.num - 1
    if num ≠ 0 then (insertNode e.text r n).map fun n => { e with nodes := n, s := s, r := r, num := num }
    else some { e with nodes := n, s := s, r := r, num := num }

def drainLoop : ℕ → Coder → Option Coder
  | 0, e => some e
  | left + 1, e => (drain e).bind (drainLoop left)

/-- a turn of the loop -/
def turn (e : Coder) : Option (Token × Coder) :=
  let length := if e.num < e.nodes.matchLength then e.num.toNat else e.nodes.matchLength
  let token := if length ≤ threshold then Token.literal (e.text e.r) else Token.copy length e.nodes.matchPosition
  let length := if length ≤ threshold then 1 else length
  (readLoop length e).bind fun w => (drainLoop w.1 w.2).map fun e => (token, e)

def encodeLoop : ℕ → Coder → Option (List Token)
  | 0, _ => none
  | fuel + 1, e => (turn e).bind fun w =>
    if 0 < w.2.num then (encodeLoop fuel w.2).map fun tokens => w.1 :: tokens else some [w.1]

def firstPass (fuel : ℕ) (text : ℕ → UInt8) (nodes : Nodes) (data : List UInt8) : Option (List Token) :=
  (start text nodes data).bind (encodeLoop fuel)

/-! ## the nodes -/

section
variable {text text' : ℕ → UInt8} {k : Links ℕ} {n : Nodes} {a : ℕ}

/-- the nodes are those of the last 4036 places before `a + 4036` and of this one; the strings of all of these
places are among those of the nodes, but for some that start with spaces -/
def Window (text : ℕ → UInt8) (k : Links ℕ) (a : ℕ) : Prop :=
  ∃ ns, Holds text k ns ∧ (∀ p ∈ ns, ∃ j, a ≤ j ∧ 3976 ≤ j ∧ j ≤ a + 4036 ∧ p = j % 4096) ∧
    ∀ j, a ≤ j → 3976 ≤ j → j ≤ a + 4036 → 4036 ≤ j ∨ a ≤ 3976 → ∃ j', j' ≤ a + 4036 ∧
      (j ≤ j' ∨ (j < 4036 ∧ 3976 ≤ j')) ∧ j' % 4096 ∈ ns ∧ stringAt text (j % 4096) = stringAt text (j' % 4096)

/-- the match is one with a place behind, and is the longest -/
structure Matched (text : ℕ → UInt8) (n : Nodes) (a : ℕ) : Prop where
  real : Real text ((a + 4036) % 4096) {p | ∃ j, a ≤ j ∧ 3976 ≤ j ∧ j < a + 4036 ∧ p = j % 4096} n
  longest : ∀ j, a ≤ j → 3976 ≤ j → j < a + 4036 → 4036 ≤ j ∨ a ≤ 3976 → ∀ m ≤ laheadSize,
    Agree m (stringAt text ((a + 4036) % 4096)) (stringAt text (j % 4096)) → m ≤ max n.matchLength threshold

theorem Real.mono {r : ℕ} {ys zs : Set ℕ} (h : Real text r ys n) (hs : ∀ y ∈ ys, y ∈ zs) : Real text r zs n :=
  h.imp_right fun ⟨h1, h2, y, hy, h3⟩ => ⟨h1, h2, y, hs y hy, h3⟩

theorem mod_lt_strbufSize (a : ℕ) : a % 4096 < strbufSize := by
  show a % 4096 < 4096
  omega

/-- a byte further, where at most the byte at `a` has changed and the copy of it -/
theorem slide_window (text' : ℕ → UInt8) (h : Window text n.toLinks a)
    (ht : ∀ i, i ≠ a % 4096 → i ≠ a % 4096 + 4096 → text' i = text i) :
    ∃ k n', deleteNode (a % 4096) n.toLinks = some k ∧
      insertNode text' ((a + 1 + 4036) % 4096) { n with toLinks := k } = some n' ∧
      Window text' n'.toLinks (a + 1) ∧ Matched text' n' (a + 1) := by
  obtain ⟨ns, hns, hplace, hall⟩ := h
  have hsame : ∀ j, a + 1 ≤ j → j ≤ a + 4036 → ∀ i < laheadSize, text' (j % 4096 + i) = text (j % 4096 + i) := by
    intro j h1 h2 i hi
    have hi' : i < 60 := hi
    exact ht _ (by omega) (by omega)
  have hstring : ∀ j, a + 1 ≤ j → j ≤ a + 4036 → stringAt text' (j % 4096) = stringAt text (j % 4096) := by
    intro j h1 h2
    funext i
    exact congrArg UInt8.toNat (hsame j h1 h2 i.val i.isLt)
  obtain ⟨k, hk, hns1⟩ := deleteNode_holds hns (p := a % 4096) (mod_lt_strbufSize a)
  have hplace1 : ∀ p ∈ {y | y ∈ ns ∧ y ≠ a % 4096}, ∃ j, a + 1 ≤ j ∧ 3976 ≤ j ∧ j ≤ a + 4036 ∧ p = j % 4096 := by
    rintro p ⟨hp, hpa⟩
    obtain ⟨j, h1, h2, h3, rfl⟩ := hplace p hp
    have hne : j ≠ a := fun e => hpa (by rw [e])
    exact ⟨j, by omega, h2, h3, rfl⟩
  have hns2 : Holds text' k {y | y ∈ ns ∧ y ≠ a % 4096} := hns1.text_changed fun p hp i hi => by
    obtain ⟨j, h1, -, h3, rfl⟩ := hplace1 p hp
    exact hsame j h1 h3 i hi
  have hfresh : (a + 1 + 4036) % 4096 ∉ {y | y ∈ ns ∧ y ≠ a % 4096} := fun hm => by
    obtain ⟨j, h1, -, h3, h4⟩ := hplace1 _ hm
    omega
  obtain ⟨n', hn', hns3, hreal, hlong⟩ := insertNode_holds (n := { n with toLinks := k }) hns2
    (mod_lt_strbufSize _) hfresh
  have hall1 : ∀ j, a + 1 ≤ j → 3976 ≤ j → j ≤ a + 4036 → 4036 ≤ j ∨ a + 1 ≤ 3976 → ∃ j', j' ≤ a + 4036 ∧
      (j ≤ j' ∨ (j < 4036 ∧ 3976 ≤ j')) ∧ j' % 4096 ∈ {y | y ∈ ns ∧ y ≠ a % 4096} ∧
      stringAt text' (j % 4096) = stringAt text' (j' % 4096) := by
    intro j h1 h2 h3 h4
    obtain ⟨j', h1', h2', h3', h4'⟩ := hall j (by omega) h2 h3 (by omega)
    refine ⟨j', h1', h2', ⟨h3', by omega⟩, ?_⟩
    rw [hstring j h1 h3, hstring j' (by omega) h1', h4']
  refine ⟨k, n', hk, hn', ⟨_, hns3, ?_, fun j h1 h2 h3 h4 => ?_⟩, hreal.mono fun p hp => ?_, fun j h1 h2 h3 h4 => ?_⟩
  · intro p hp
    rcases hp with hp | ⟨hp, -⟩
    · exact ⟨a + 1 + 4036, by omega, by omega, le_refl _, hp⟩
    · obtain ⟨j, h1, h2, h3, h4⟩ := hplace1 p hp
      exact ⟨j, h1, h2, by omega, h4⟩
  · by_cases hj : j = a + 1 + 4036
    · exact ⟨j, h3, Or.inl (le_refl _), Or.inl (by rw [hj]), rfl⟩
    · obtain ⟨j', h1', h2', h3', h4'⟩ := hall1 j h1 h2 (by omega) h4
      by_cases he : stringAt text' (j' % 4096) = stringAt text' ((a + 1 + 4036) % 4096)
      · exact ⟨a + 1 + 4036, le_refl _, Or.inl h3, Or.inl rfl, h4'.trans he⟩
      · exact ⟨j', by omega, h2', Or.inr ⟨h3', he⟩, h4'⟩
  · obtain ⟨j, h1, h2, h3, h4⟩ := hplace1 p hp
    exact ⟨j, h1, h2, by omega, h4⟩
  · intro m hm ha
    obtain ⟨j', -, -, h3', h4'⟩ := hall1 j h1 h2 (by omega) h4
    rw [h4'] at ha
    exact hlong _ h3' m hm ha

end

/-! ## the bytes in the buffer -/

/-- the file behind 4036 spaces -/
def stream (data : List UInt8) (k : ℕ) : UInt8 := if k < 4036 then 32 else data.getD (k - 4036) 0

/-- the places from `a` to `b - 1` are in the buffer, and those that are read behind its end once more -/
structure InBuffer (data : List UInt8) (text : ℕ → UInt8) (a b : ℕ) : Prop where
  base : ∀ k, a ≤ k → k < b → text (k % 4096) = stream data k
  again : ∀ k, 4096 ≤ k → a ≤ k → k < b → k % 4096 < 59 → text (k % 4096 + 4096) = stream data k

section
variable {data : List UInt8} {text : ℕ → UInt8} {a b : ℕ}

theorem putByte_self (text : ℕ → UInt8) (s : ℕ) (c : UInt8) : putByte text s c s = c := by
  have hne : s ≠ s + strbufSize := Nat.ne_of_lt (Nat.lt_add_of_pos_right (by decide))
  rw [putByte]
  split
  · rw [Function.update_of_ne hne, Function.update_self]
  · rw [Function.update_self]

theorem putByte_again (text : ℕ → UInt8) {s : ℕ} (hs : s < laheadSize - 1) (c : UInt8) :
    putByte text s c (s + strbufSize) = c := by
  rw [putByte, if_pos hs, Function.update_self]

theorem putByte_of_ne (text : ℕ → UInt8) {s i : ℕ} (c : UInt8) (h : i ≠ s) (h' : i ≠ s + strbufSize) :
    putByte text s c i = text i := by
  rw [putByte]
  split
  · rw [Function.update_of_ne h', Function.update_of_ne h]
  · rw [Function.update_of_ne h]

theorem stream_add (data : List UInt8) (k : ℕ) : stream data (k + 4036) = data.getD k 0 := by
  rw [stream, if_neg (by omega), Nat.add_sub_cancel]

theorem InBuffer.at (h : InBuffer data text a b) {k i : ℕ} (ha : a ≤ k) (hb : k + i < b) (hi : i < 60) :
    text (k % 4096 + i) = stream data (k + i) := by
  by_cases hin : k % 4096 + i < 4096
  · rw [show k % 4096 + i = (k + i) % 4096 by omega]
    exact h.base _ (by omega) hb
  · rw [show k % 4096 + i = (k + i) % 4096 + 4096 by omega]
    exact h.again _ (by omega) (by omega) hb (by omega)

theorem InBuffer.read (h : InBuffer data text a (a + 4096)) {s : ℕ} {c : UInt8} (hs : s = a % 4096)
    (hc : stream data (a + 4096) = c) : InBuffer data (putByte text s c) (a + 1) (a + 1 + 4096) := by
  have hne : ∀ i, i ≠ a % 4096 → i ≠ a % 4096 + 4096 → putByte text s c i = text i := fun i h1 h2 =>
    putByte_of_ne text c (by rw [hs]; exact h1) (by rw [hs]; exact h2)
  refine ⟨fun k h1 h2 => ?_, fun k h1 h2 h3 h4 => ?_⟩
  · by_cases hk : k = a + 4096
    · rw [hk, Nat.add_mod_right, ← hs, putByte_self, hc]
    · rw [hne _ (by omega) (by omega)]
      exact h.base k (by omega) (by omega)
  · by_cases hk : k = a + 4096
    · subst hk
      rw [Nat.add_mod_right, ← hs] at h4 ⊢
      rw [hc]
      exact putByte_again text h4 c
    · rw [hne _ (by omega) (by omega)]
      exact h.again k h1 (by omega) (by omega) h4

theorem InBuffer.narrow (h : InBuffer data text a b) {a' b' : ℕ} (ha : a ≤ a') (hb : b' ≤ b) :
    InBuffer data text a' b' :=
  ⟨fun k h1 h2 => h.base k (le_trans ha h1) (lt_of_lt_of_le h2 hb),
    fun k h1 h2 h3 => h.again k h1 (le_trans ha h2) (lt_of_lt_of_le h3 hb)⟩

end

/-! ## the state of the loop -/

/-- the byte `a` of the file is encoded next, and `w` bytes from there on are in the look-ahead -/
structure Encoding (data : List UInt8) (a w : ℕ) (e : Coder) : Prop where
  s : e.s = a % 4096
  r : e.r = (a + 4036) % 4096
  num : e.num = w
  some : 0 < w
  most : w ≤ 60
  length : a + w ≤ data.length
  input : e.input = data.drop (a + w)
  full : e.input ≠ [] → w = 60
  text : InBuffer data e.text a (a + 4036 + w)
  window : Window e.text e.nodes.toLinks a
  matched : Matched e.text e.nodes a

section
variable {data : List UInt8} {a w : ℕ} {e : Coder}

theorem mask_succ {x : ℕ} (h : x = a % 4096) : (x + 1) % strbufSize = (a + 1) % 4096 := by
  show (x + 1) % 4096 = _
  omega

theorem mask_succ' {x : ℕ} (h : x = (a + 4036) % 4096) : (x + 1) % strbufSize = (a + 1 + 4036) % 4096 := by
  show (x + 1) % 4096 = _
  omega

theorem advance_encoding (h : Encoding data a w e) {c : UInt8} {input : List UInt8} (hc : e.input = c :: input) :
    ∃ e', advance c { e with input := input } = some e' ∧ Encoding data (a + 1) w e' := by
  have hw : w = 60 := h.full (by rw [hc]; exact List.cons_ne_nil c input)
  have hdrop : data.drop (a + w) = c :: input := h.input.symm.trans hc
  have hlt : a + w < data.length := by
    by_contra hge
    rw [List.drop_eq_nil_of_le (not_lt.mp hge)] at hdrop
    exact absurd hdrop (List.cons_ne_nil c input).symm
  have hcons : data[a + w] :: data.drop (a + w + 1) = c :: input := by
    rw [← List.drop_eq_getElem_cons hlt, hdrop]
  obtain ⟨hbyte, hrest⟩ := List.cons.inj hcons
  have hstream : stream data (a + 4096) = c := by
    rw [show a + 4096 = a + w + 4036 by omega, stream_add, List.getD_eq_getElem _ _ hlt, hbyte]
  have hs := h.s
  obtain ⟨k, n', hk, hn', hwin, hmat⟩ := slide_window (putByte e.text e.s c) h.window fun i h1 h2 =>
    putByte_of_ne e.text c (by rw [hs]; exact h1) (by rw [hs]; exact h2)
  refine ⟨⟨putByte e.text e.s c, n', input, (e.s + 1) % strbufSize, (e.r + 1) % strbufSize, e.num⟩, ?_, ?_⟩
  · rw [advance]
    dsimp only
    rw [show deleteNode e.s e.nodes.toLinks = some k by rw [hs, hk], Option.bind_some, mask_succ' h.r, hn']
    rfl
  · refine ⟨mask_succ hs, mask_succ' h.r, h.num, h.some, h.most, by omega, ?_, fun _ => hw, ?_, hwin, hmat⟩
    · show input = data.drop (a + 1 + w)
      rw [show a + 1 + w = a + w + 1 by omega, hrest]
    · have hbuf := h.text
      rw [hw, show a + 4036 + 60 = a + 4096 by omega] at hbuf
      rw [hw, show a + 1 + 4036 + 60 = a + 1 + 4096 by omega]
      exact hbuf.read hs hstream

theorem drain_encoding (h : Encoding data a w e) (hi : e.input = []) :
    ∃ e', drain e = some e' ∧ e'.input = [] ∧ e'.num = e.num - 1 ∧ (1 < w → Encoding data (a + 1) (w - 1) e') := by
  have hs := h.s
  obtain ⟨k, n', hk, hn', hwin, hmat⟩ := slide_window e.text h.window fun i _ _ => rfl
  have hend : data.drop (a + w) = [] := h.input.symm.trans hi
  rw [drain]
  dsimp only
  rw [hs, hk, Option.bind_some, mask_succ' h.r, hn']
  by_cases hw : 1 < w
  · have hnum := h.num
    rw [if_pos (by omega)]
    refine ⟨_, rfl, hi, rfl, fun _ => ⟨mask_succ rfl, rfl, ?_, by omega, ?_, ?_, ?_, fun hne => absurd hi hne, ?_,
      hwin, hmat⟩⟩
    · show e.num - 1 = _
      omega
    · have := h.most
      omega
    · have := h.length
      omega
    · show e.input = _
      rw [hi, show a + 1 + (w - 1) = a + w by omega, hend]
    · exact h.text.narrow (by omega) (by omega)
  · by_cases hz : e.num - 1 ≠ 0
    · rw [if_pos hz]
      exact ⟨_, rfl, hi, rfl, fun hw' => absurd hw' hw⟩
    · rw [if_neg hz]
      exact ⟨_, rfl, hi, rfl, fun hw' => absurd hw' hw⟩

end

/-! ## the first state -/

theorem fillLoop_spec (r left : ℕ) : ∀ (num : ℕ) (text : ℕ → UInt8) (input : List UInt8),
    (fillLoop r left num text input).2.1 = input.drop left ∧
    (fillLoop r left num text input).2.2 = num + min left input.length ∧
    (∀ i < min left input.length, (fillLoop r left num text input).1 (r + num + i) = input.getD i 0) ∧
    ∀ j < r + num, (fillLoop r left num text input).1 j = text j := by
  induction left with
  | zero =>
    intro num text input
    exact ⟨rfl, by rw [Nat.zero_min]; rfl, fun i hi => absurd hi (by omega), fun _ _ => rfl⟩
  | succ left ih =>
    intro num text input
    cases input with
    | nil => exact ⟨rfl, rfl, fun i hi => absurd hi (by simp), fun _ _ => rfl⟩
    | cons c input =>
      obtain ⟨h1, h2, h3, h4⟩ := ih (num + 1) (Function.update text (r + num) c) input
      rw [fillLoop, List.length_cons]
      refine ⟨h1, by rw [h2]; omega, fun i hi => ?_, fun j hj => ?_⟩
      · cases i with
        | zero =>
          rw [h4 _ (by omega)]
          exact Function.update_self _ _ _
        | succ i =>
          rw [show r + num + (i + 1) = r + (num + 1) + i by omega, h3 i (by omega)]
          rfl
      · rw [h4 j (by omega), Function.update_of_ne (by omega)]

/-- strings in front of `r = 4036`, the last one first -/
theorem insertSpaces_holds {text : ℕ → UInt8} {n : Nodes} (h : Holds text n.toLinks ∅) : ∀ {count : ℕ}, count ≤ 60 →
    ∃ n' ns, insertSpaces text 4036 count n = some n' ∧ Holds text n'.toLinks ns ∧
      (∀ p ∈ ns, 4036 ≤ p + count ∧ p < 4036) ∧ ∀ j, 4036 ≤ j + count → j < 4036 → ∃ j', 4036 ≤ j' + count ∧
        j' < 4036 ∧ j' ∈ ns ∧ stringAt text j = stringAt text j' := by
  intro count
  induction count with
  | zero =>
    intro _
    exact ⟨n, ∅, rfl, h, fun p hp => absurd hp (Set.notMem_empty p), fun j h1 h2 => absurd h1 (by omega)⟩
  | succ count ih =>
    intro hc
    obtain ⟨n1, ns, hn1, hns, hplace, hall⟩ := ih (by omega)
    have hfresh : 4036 - (1 + count) ∉ ns := fun hm => by
      have := hplace _ hm
      omega
    obtain ⟨n2, hn2, hns2, -, -⟩ := insertNode_holds hns
      (show 4036 - (1 + count) < 4096 by omega) hfresh
    refine ⟨n2, _, ?_, hns2, fun p hp => ?_, fun j h1 h2 => ?_⟩
    · rw [insertSpaces, List.range'_1_concat, List.foldlM_append, ← insertSpaces, hn1]
      show (insertNode text (4036 - (1 + count)) n1).bind some = some n2
      rw [hn2]
      rfl
    · rcases hp with hp | ⟨hp, -⟩
      · omega
      · have := hplace p hp
        omega
    · by_cases hj : j = 4036 - (1 + count)
      · exact ⟨j, h1, h2, Or.inl hj, rfl⟩
      · obtain ⟨j', h1', h2', h3', h4'⟩ := hall j (by omega) h2
        by_cases he : stringAt text j' = stringAt text (4036 - (1 + count))
        · exact ⟨4036 - (1 + count), by omega, by omega, Or.inl rfl, h4'.trans he⟩
        · exact ⟨j', by omega, h2', Or.inr ⟨h3', he⟩, h4'⟩

theorem start_encoding (text : ℕ → UInt8) (nodes : Nodes) {data : List UInt8} (hd : data ≠ []) :
    ∃ e w, start text nodes data = some e ∧ Encoding data 0 w e := by
  obtain ⟨hinput, hnum, hnew, hold⟩ := fillLoop_spec 4036 60 0 (fun index => if index < 4036 then 32 else text index)
    data
  have hpos : 0 < data.length := List.length_pos_iff.mpr hd
  generalize hfill : fillLoop 4036 60 0 (fun index => if index < 4036 then 32 else text index) data = filled
    at hinput hnum hnew hold
  have hbuf : InBuffer data filled.1 0 (4036 + filled.2.2) := by
    refine ⟨fun k _ hk => ?_, fun k hk _ hk' => absurd hk' (by omega)⟩
    rw [Nat.mod_eq_of_lt (by omega), stream]
    by_cases hlt : k < 4036
    · rw [hold k (by omega), if_pos hlt, if_pos hlt]
    · obtain ⟨i, rfl⟩ := Nat.exists_eq_add_of_le (not_lt.mp hlt)
      rw [if_neg hlt, Nat.add_sub_cancel_left]
      exact hnew i (by omega)
  obtain ⟨n1, ns, hn1, hns, hplace, hall⟩ := insertSpaces_holds (initTree_holds filled.1 nodes) (le_refl 60)
  have hfresh : 4036 ∉ ns := fun hm => by
    have := hplace _ hm
    omega
  obtain ⟨n2, hn2, hns2, hreal, hlong⟩ := insertNode_holds hns (show 4036 < 4096 by omega) hfresh
  refine ⟨⟨filled.1, n2, filled.2.1, 0, 4036, filled.2.2⟩, filled.2.2, ?_, rfl, rfl, rfl, by omega, by omega, by omega,
    ?_, fun hne => ?_, ?_, ⟨_, hns2, fun p hp => ?_, fun j _ h2 h3 _ => ?_⟩, hreal.mono fun p hp => ?_,
    fun j _ h2 h3 _ m hm ha => ?_⟩
  · rw [start]
    rw [show strbufSize - laheadSize = 4036 from rfl, show laheadSize = 60 from rfl, hfill, hn1, Option.bind_some, hn2]
    rfl
  · rw [hinput, hnum, Nat.zero_add, Nat.zero_add]
    rcases le_total 60 data.length with hl | hl
    · rw [Nat.min_eq_left hl]
    · rw [Nat.min_eq_right hl, List.drop_length, List.drop_eq_nil_of_le hl]
  · have hl : 60 < data.length := by
      by_contra hge
      exact hne (by rw [hinput, List.drop_eq_nil_of_le (not_lt.mp hge)])
    omega
  · rw [Nat.zero_add]
    exact hbuf
  · rcases hp with hp | ⟨hp, -⟩
    · exact ⟨4036, by omega, by omega, by omega, hp⟩
    · have := hplace p hp
      exact ⟨p, by omega, by omega, by omega, by omega⟩
  · by_cases hj : j = 4036
    · exact ⟨j, h3, Or.inl (le_refl _), Or.inl (by rw [hj]), rfl⟩
    · obtain ⟨j', h1', h2', h3', h4'⟩ := hall j (by omega) (by omega)
      rw [Nat.mod_eq_of_lt (show j < 4096 by omega)]
      by_cases he : stringAt filled.1 j' = stringAt filled.1 4036
      · exact ⟨4036, by omega, Or.inl (by omega), Or.inl rfl, h4'.trans he⟩
      · refine ⟨j', by omega, Or.inr (by omega), ?_, ?_⟩
        · rw [Nat.mod_eq_of_lt (by omega)]
          exact Or.inr ⟨h3', he⟩
        · rw [Nat.mod_eq_of_lt (by omega), h4']
  · have := hplace p hp
    exact ⟨p, by omega, by omega, by omega, by omega⟩
  · obtain ⟨j', -, -, h3', h4'⟩ := hall j (by omega) (by omega)
    rw [Nat.mod_eq_of_lt (show j < 4096 by omega), h4'] at ha
    exact hlong j' h3' m hm ha

end Wpack
