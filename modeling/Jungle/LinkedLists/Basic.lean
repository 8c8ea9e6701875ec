import Jungle.Lib.Loop
import Jungle.Lib.MachineInt
import Jungle.Lib.Store

/-!
# The linked list of the exercises

The functions of `Data-Structures/tests/linked_list.c` that the exercises rest on: `findNode`,
`insertNode`, `removeNode`, `getItemAt`, `printList` and `insertSortedLL`. The memory holds the
`LinkedList` structs and the `ListNode` cells in two stores. A pointer to a struct or a node is an
`Option ℕ`, `none` being `NULL`; a call faults, with `none`, where it follows a pointer to no cell.
The argument `new` of a call that may allocate is the address `malloc` returns there. The counter
`size` is a 32-bit `int`.
-/

set_option autoImplicit false
set_option relaxedAutoImplicit false

namespace Jungle.LinkedLists

open Jungle.Lib

/-- A node of a list. -/
structure ListNode where
  item : ℤ
  next : Option ℕ
deriving DecidableEq, Repr

/-- The header of a list. -/
structure LinkedList where
  size : ℤ
  head : Option ℕ
deriving DecidableEq, Repr

/-- The headers and the nodes in memory. -/
structure Memory where
  lists : Store LinkedList
  nodes : Store ListNode

/-- The loop of `findNode`: follows `index` links from the node `temp`. -/
def findNodeLoop (nodes : Store ListNode) : ℕ → ℕ → Option (Option ℕ)
  | 0, temp => some (some temp)
  | index + 1, temp => do
    let node ← nodes temp
    match node.next with
    | none => return none
    | some temp' => findNodeLoop nodes index temp'

/-- `findNode(ll, index)`. -/
def findNode (m : Memory) (ll : Option ℕ) (index : ℤ) : Option (Option ℕ) :=
  match ll with
  | none => some none
  | some p => do
    let l ← m.lists p
    if index < 0 ∨ index ≥ l.size then return none
    match l.head with
    | none => return none
    | some temp => findNodeLoop m.nodes index.toNat temp

/-- `insertNode(ll, index, value)`: the returned code and the memory afterwards. -/
def insertNode (m : Memory) (ll : Option ℕ) (index value : ℤ) (new : ℕ) :
    Option (ℤ × Memory) :=
  match ll with
  | none => some (-1, m)
  | some p => do
    let l ← m.lists p
    if index < 0 ∨ index > int32 (l.size + 1) then return (-1, m)
    if l.head = none ∨ index = 0 then
      return (0, ⟨m.lists.put p ⟨int32 (l.size + 1), some new⟩, m.nodes.put new ⟨value, l.head⟩⟩)
    match ← findNode m (some p) (index - 1) with
    | none => return (-1, m)
    | some pre =>
      let node ← m.nodes pre
      return (0, ⟨m.lists.put p { l with size := int32 (l.size + 1) },
        (m.nodes.put new ⟨value, node.next⟩).put pre { node with next := some new }⟩)

/-- `removeNode(ll, index)`: the returned code and the memory afterwards. -/
def removeNode (m : Memory) (ll : Option ℕ) (index : ℤ) : Option (ℤ × Memory) :=
  match ll with
  | none => some (-1, m)
  | some p => do
    let l ← m.lists p
    if index < 0 ∨ index ≥ l.size then return (-1, m)
    if index = 0 then
      let head ← l.head
      let node ← m.nodes head
      return (0, ⟨m.lists.put p ⟨int32 (l.size - 1), node.next⟩, m.nodes.free head⟩)
    match ← findNode m (some p) (index - 1) with
    | none => return (-1, m)
    | some pre =>
      let node ← m.nodes pre
      match node.next with
      | none => return (-1, m)
      | some cur =>
        let curNode ← m.nodes cur
        return (0, ⟨m.lists.put p { l with size := int32 (l.size - 1) },
          (m.nodes.put pre { node with next := curNode.next }).free cur⟩)

/-- `getItemAt(ll, index)`. -/
def getItemAt (m : Memory) (ll : Option ℕ) (index : ℤ) : Option ℤ := do
  match ← findNode m ll index with
  | none => return -1
  | some a =>
    let node ← m.nodes a
    return node.item

/-- One round of the loop of `printList`: the next node and the items printed so far. -/
def printListBody (nodes : Store ListNode) (state : Option ℕ × List ℤ) :
    Option ((Option ℕ × List ℤ) ⊕ List ℤ) :=
  match state.1 with
  | none => some (.inr state.2)
  | some cur => do
    let node ← nodes cur
    return .inl (node.next, state.2 ++ [node.item])

/-- `printList(ll)`: the items it prints. -/
def printList (fuel : ℕ) (m : Memory) (ll : Option ℕ) : Option (List ℤ) :=
  match ll with
  | none => some []
  | some p => do
    let l ← m.lists p
    whileLoop (printListBody m.nodes) fuel (l.head, [])

/-- One round of the scan of `insertSortedLL`: the node reached and its index. -/
def scanBody (nodes : Store ListNode) (item : ℤ) (state : Option ℕ × ℤ) :
    Option ((Option ℕ × ℤ) ⊕ (Option ℕ × ℤ)) :=
  match state.1 with
  | none => some (.inr state)
  | some cur => do
    let node ← nodes cur
    if node.item < item then return .inl (node.next, int32 (state.2 + 1))
    return .inr state

/-- The end of `insertSortedLL`: the insertion at the index the scan found. -/
def insertScanned (fuel : ℕ) (m : Memory) (p : ℕ) (item : ℤ) (new : ℕ) (idx : ℤ) :
    Option (ℤ × Memory × List ℤ) := do
  let (status, m') ← insertNode m (some p) idx item new
  if status = -1 then return (status, m', [])
  let printed ← printList fuel m' (some p)
  return (idx, m', printed)

/-- `insertSortedLL(ll, item)`: the returned index, the memory afterwards and what it prints. -/
def insertSortedLL (fuel : ℕ) (m : Memory) (ll : Option ℕ) (item : ℤ) (new : ℕ) :
    Option (ℤ × Memory × List ℤ) :=
  match ll with
  | none => some (-1, m, [])
  | some p => do
    let l ← m.lists p
    if l.head = none then
      let (status, m') ← insertNode m (some p) 0 item new
      return (status, m', [])
    match ← whileLoop (scanBody m.nodes item) fuel (l.head, 0) with
    | (none, idx) => insertScanned fuel m p item new idx
    | (some cur, idx) =>
      let node ← m.nodes cur
      if node.item = item then return (-1, m, [])
      insertScanned fuel m p item new idx

end Jungle.LinkedLists
