import OpenWatcom.Lib.Bytes

/-!
# Calls and jumps of x86 code

Instructions up to the first one that transfers control, in code whose operands have `n` bytes: 2 in 16-bit
and 4 in 32-bit segments. Addresses inside a segment wrap at `256 ^ n`.

* `transfer`       where control goes, and what has been pushed on the way;
* `transfer_far`   a far call or jump;
* `transfer_near`  a near call behind a push of the code segment, with and without a prefix, and a near jump.
-/

namespace Transfers
open Bytes

/-- the new code segment and instruction pointer; what was pushed, the last first -/
structure Transfer where
  cs : Nat
  ip : Nat
  pushed : List Nat
  deriving DecidableEq, Repr

/-- segment overrides do not change the instructions here -/
def transfer (n cs : Nat) (ip : Nat) (pushed : List Nat) : List UInt8 → Option Transfer
  | [] => none
  | op :: rest =>
    let next := (ip + 1 + n) % 256 ^ n
    let operand := leNat (rest.take n)
    if op = 0x0E then transfer n cs (ip + 1) (cs :: pushed) rest
    else if op = 0x90 ∨ op = 0x36 ∨ op = 0x3E then transfer n cs (ip + 1) pushed rest
    else if rest.length < n then none
    else if op = 0xE8 then some ⟨cs, (ip + 1 + n + operand) % 256 ^ n, next :: pushed⟩
    else if op = 0xE9 then some ⟨cs, (ip + 1 + n + operand) % 256 ^ n, pushed⟩
    else if rest.length < n + 2 then none
    else if op = 0x9A then
      some ⟨leNat ((rest.drop n).take 2), operand, (ip + 1 + n + 2) % 256 ^ n :: cs :: pushed⟩
    else if op = 0xEA then some ⟨leNat ((rest.drop n).take 2), operand, pushed⟩
    else none

section
variable {n : Nat} (cs ip : Nat) {operand : List UInt8} (hn : operand.length = n)

include hn

theorem transfer_near (pushed : List Nat) (rest : List UInt8) :
    transfer n cs ip pushed (0xE8 :: (operand ++ rest))
      = some ⟨cs, (ip + 1 + n + leNat operand) % 256 ^ n, (ip + 1 + n) % 256 ^ n :: pushed⟩ := by
  rw [transfer, if_neg (by decide), if_neg (by decide), if_neg (by rw [List.length_append]; omega),
    if_pos rfl, List.take_left' hn]

theorem transfer_jump (rest : List UInt8) :
    transfer n cs ip [] (0xE9 :: (operand ++ rest))
      = some ⟨cs, (ip + 1 + n + leNat operand) % 256 ^ n, []⟩ := by
  rw [transfer, if_neg (by decide), if_neg (by decide), if_neg (by rw [List.length_append]; omega),
    if_neg (by decide), if_pos rfl, List.take_left' hn]

/-- a push of the code segment and a near call -/
theorem transfer_push (rest : List UInt8) :
    transfer n cs ip [] (0x0E :: 0xE8 :: (operand ++ rest))
      = some ⟨cs, (ip + 2 + n + leNat operand) % 256 ^ n, [(ip + 2 + n) % 256 ^ n, cs]⟩ := by
  rw [transfer, if_pos rfl]
  exact transfer_near cs (ip + 1) hn [cs] rest

theorem transfer_push_override (rest : List UInt8) :
    transfer n cs ip [] (0x0E :: 0x3E :: 0xE8 :: (operand ++ rest))
      = some ⟨cs, (ip + 3 + n + leNat operand) % 256 ^ n, [(ip + 3 + n) % 256 ^ n, cs]⟩ := by
  rw [transfer, if_pos rfl, transfer, if_neg (by decide), if_pos (by decide)]
  exact transfer_near cs (ip + 2) hn [cs] rest

variable {seg : List UInt8} (hs : seg.length = 2)

include hs

theorem transfer_far :
    transfer n cs ip [] (0x9A :: (operand ++ seg))
      = some ⟨leNat seg, leNat operand, [(ip + 1 + n + 2) % 256 ^ n, cs]⟩ := by
  rw [transfer, if_neg (by decide), if_neg (by decide), if_neg (by rw [List.length_append]; omega),
    if_neg (by decide), if_neg (by decide), if_neg (by rw [List.length_append]; omega), if_pos rfl,
    List.take_left' hn, List.drop_left' hn, ← hs, List.take_length]

theorem transfer_far_jump :
    transfer n cs ip [] (0xEA :: (operand ++ seg)) = some ⟨leNat seg, leNat operand, []⟩ := by
  rw [transfer, if_neg (by decide), if_neg (by decide), if_neg (by rw [List.length_append]; omega),
    if_neg (by decide), if_neg (by decide), if_neg (by rw [List.length_append]; omega),
    if_neg (by decide), if_pos rfl, List.take_left' hn, List.drop_left' hn, ← hs, List.take_length]

end

end Transfers
