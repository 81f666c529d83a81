import OpenWatcom.Wpack.Tokens

/-!
# Literals and copies written out again: `decode.c`

* `put`, `copyLoop`     what both loops of `decode.c` do with a byte and with a copy
* `Unpacking`     a part of the file is written, and the end of it is in the buffer
* `writeToken_unpacking`     a token that says what stands there writes it
-/

namespace Wpack

/-- `text_buf`, `r`, and what `DecWriteByte` has got -/
structure Unpacker where
  text : ℕ → UInt8
  r : ℕ
  written : List UInt8

def put (c : UInt8) (o : Unpacker) : Unpacker :=
  ⟨Function.update o.text o.r c, (o.r + 1) % strbufSize, o.written ++ [c]⟩

/-- the loop over `k`, of which `left` turns are to come -/
def copyLoop (i : ℕ) : ℕ → ℕ → Unpacker → Unpacker
  | 0, _, o => o
  | left + 1, k, o => copyLoop i left (k + 1) (put (o.text ((i + k) % strbufSize)) o)

/-- a copy of `j` bytes from `position` -/
def putCopy (j position : ℕ) (o : Unpacker) : Unpacker :=
  copyLoop (((o.r : ℤ) - position - 1) % strbufSize).toNat j 0 o

def writeToken (t : Token) (o : Unpacker) : Unpacker :=
  match t with
  | .literal c => put c o
  | .copy length position => putCopy length position.toNat o

/-- the buffer before the loop -/
def startUnpack (text : ℕ → UInt8) : Unpacker :=
  ⟨fun i => if i < strbufSize - laheadSize then 32 else text i, strbufSize - laheadSize, []⟩

/-- `a` bytes of the file are written -/
structure Unpacking (data : List UInt8) (a : ℕ) (o : Unpacker) : Prop where
  r : o.r = (a + 4036) % 4096
  written : o.written = data.take a
  text : ∀ k, a ≤ k → k < a + 4036 → o.text (k % 4096) = stream data k

section
variable {data : List UInt8} {a : ℕ} {o : Unpacker}

theorem startUnpack_unpacking (data : List UInt8) (text : ℕ → UInt8) : Unpacking data 0 (startUnpack text) := by
  refine ⟨rfl, rfl, fun k _ hk => ?_⟩
  rw [Nat.mod_eq_of_lt (by omega), stream, if_pos (by omega)]
  exact if_pos (show k < 4036 by omega)

theorem put_unpacking (h : Unpacking data a o) {c : UInt8} (hc : data[a]? = some c) :
    Unpacking data (a + 1) (put c o) := by
  obtain ⟨hlt, hget⟩ := List.getElem?_eq_some_iff.mp hc
  refine ⟨mask_succ' h.r, ?_, fun k h1 h2 => ?_⟩
  · show o.written ++ [c] = _
    rw [h.written, List.take_add_one, hc]
    rfl
  · show Function.update o.text o.r c (k % 4096) = _
    rw [h.r]
    by_cases hk : k = a + 4036
    · rw [hk, Function.update_self, stream_add, List.getD_eq_getElem _ _ hlt, hget]
    · rw [Function.update_of_ne (by omega)]
      exact h.text k (by omega) (by omega)

/-- a copy may reach into the bytes that it writes -/
theorem copyLoop_unpacking {j i : ℕ} (hi : i = j % 4096) (left : ℕ) : ∀ {a k : ℕ} {o : Unpacker}, Unpacking data a o →
    a ≤ j + k → j + k < a + 4036 → a + left ≤ data.length →
    (∀ m < left, stream data (j + k + m) = stream data (a + 4036 + m)) →
    Unpacking data (a + left) (copyLoop i left k o) := by
  induction left with
  | zero =>
    intro a k o h _ _ _ _
    exact h
  | succ left ih =>
    intro a k o h h1 h2 hlen heq
    have hc : data[a]? = some (o.text ((i + k) % strbufSize)) := by
      have hmod : (i + k) % strbufSize = (j + k) % 4096 := by
        show (i + k) % 4096 = _
        omega
      have h0 := heq 0 (Nat.succ_pos left)
      rw [Nat.add_zero, Nat.add_zero, stream_add, List.getD_eq_getElem _ _ (show a < data.length by omega)] at h0
      rw [hmod, h.text _ h1 h2, h0, List.getElem?_eq_getElem]
    rw [copyLoop, ← Nat.add_assoc, Nat.add_right_comm]
    refine ih (put_unpacking h hc) (by omega) (by omega) (by omega) fun m hm => ?_
    have := heq (m + 1) (by omega)
    rwa [show j + k + (m + 1) = j + (k + 1) + m by omega, show a + 4036 + (m + 1) = a + 1 + 4036 + m by omega] at this

theorem writeToken_unpacking (h : Unpacking data a o) {t : Token} (ht : Describes data a t) :
    Unpacking data (a + t.length) (writeToken t o) := by
  cases t with
  | literal c => exact put_unpacking h ht
  | copy length position =>
    obtain ⟨-, -, hlen, hpos, heq⟩ := ht
    have hi : (((o.r : ℤ) - position.toNat - 1) % strbufSize).toNat = (a + 4036 - (position.toNat + 1)) % 4096 := by
      rw [h.r]
      show (((((a + 4036) % 4096 : ℕ) : ℤ) - position.toNat - 1) % 4096).toNat = _
      omega
    exact copyLoop_unpacking hi length h (by omega) (by omega) hlen heq

end

end Wpack
