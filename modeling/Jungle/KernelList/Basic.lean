import Jungle.Lib.Loop
import Jungle.Lib.Store

/-!
# The lists of the kernel library

`pintos/lib/kernel/list.c`. The store holds the `struct list_elem` cells, those that are the head and
the tail of a `struct list` among them. A call faults, with `none`, where an `ASSERT` fails and where
it follows a pointer to no cell. The arguments are pointers to cells; the assertions that they are not
`NULL` are left out. `fuel` bounds the rounds of the loop of `list_reverse`.
-/

set_option autoImplicit false
set_option relaxedAutoImplicit false

namespace Jungle.KernelList

open Jungle.Lib

/-- `struct list_elem` -/
structure ListElem where
  prev : Option ℕ
  next : Option ℕ
deriving DecidableEq, Repr

/-- The cells. -/
abbrev Elems := Store ListElem

/-- `struct list`: where its two header elements are. -/
structure KList where
  head : ℕ
  tail : ℕ
deriving DecidableEq, Repr

/-- `elem->prev` -/
def prev (m : Elems) (elem : ℕ) : Option (Option ℕ) := (m elem).map ListElem.prev

/-- `elem->next` -/
def next (m : Elems) (elem : ℕ) : Option (Option ℕ) := (m elem).map ListElem.next

def setPrev (m : Elems) (elem : ℕ) (p : Option ℕ) : Option Elems :=
  m.update? elem fun e ↦ { e with prev := p }

def setNext (m : Elems) (elem : ℕ) (p : Option ℕ) : Option Elems :=
  m.update? elem fun e ↦ { e with next := p }

/-- `is_head(elem)` -/
def isHead (m : Elems) (elem : ℕ) : Option Bool := do
  return (← prev m elem) = none ∧ (← next m elem) ≠ none

/-- `is_interior(elem)` -/
def isInterior (m : Elems) (elem : ℕ) : Option Bool := do
  return (← prev m elem) ≠ none ∧ (← next m elem) ≠ none

/-- `is_tail(elem)` -/
def isTail (m : Elems) (elem : ℕ) : Option Bool := do
  return (← prev m elem) ≠ none ∧ (← next m elem) = none

/-- `ASSERT (condition)` -/
def assert (condition : Bool) : Option Unit := if condition then some () else none

/-- `list_init(list)` -/
def listInit (m : Elems) (list : KList) : Option Elems := do
  let m ← setPrev m list.head none
  let m ← setNext m list.head (some list.tail)
  let m ← setPrev m list.tail (some list.head)
  setNext m list.tail none

/-- `list_begin(list)` -/
def listBegin (m : Elems) (list : KList) : Option (Option ℕ) := next m list.head

/-- `list_end(list)` -/
def listEnd (list : KList) : ℕ := list.tail

/-- `list_next(elem)` -/
def listNext (m : Elems) (elem : ℕ) : Option (Option ℕ) := do
  assert ((← isHead m elem) || (← isInterior m elem))
  next m elem

/-- `list_prev(elem)` -/
def listPrev (m : Elems) (elem : ℕ) : Option (Option ℕ) := do
  assert ((← isInterior m elem) || (← isTail m elem))
  prev m elem

/-- `list_empty(list)` -/
def listEmpty (m : Elems) (list : KList) : Option Bool := do
  return (← listBegin m list) = some (listEnd list)

/-- `list_insert(before, elem)` -/
def listInsert (m : Elems) (before elem : ℕ) : Option Elems := do
  assert ((← isInterior m before) || (← isTail m before))
  let m ← setPrev m elem (← prev m before)
  let m ← setNext m elem (some before)
  let m ← setNext m (← (← prev m before)) (some elem)
  setPrev m before (some elem)

/-- `list_splice(before, first, last)` -/
def listSplice (m : Elems) (before first last : ℕ) : Option Elems := do
  assert ((← isInterior m before) || (← isTail m before))
  if first = last then return m
  else
    let last ← (← listPrev m last)
    assert (← isInterior m first)
    assert (← isInterior m last)
    let m ← setNext m (← (← prev m first)) (← next m last)
    let m ← setPrev m (← (← next m last)) (← prev m first)
    let m ← setPrev m first (← prev m before)
    let m ← setNext m last (some before)
    let m ← setNext m (← (← prev m before)) (some first)
    setPrev m before (some last)

/-- `list_push_front(list, elem)` -/
def listPushFront (m : Elems) (list : KList) (elem : ℕ) : Option Elems := do
  listInsert m (← (← listBegin m list)) elem

/-- `list_push_back(list, elem)` -/
def listPushBack (m : Elems) (list : KList) (elem : ℕ) : Option Elems :=
  listInsert m (listEnd list) elem

/-- `list_remove(elem)`: the element that followed, and the cells. -/
def listRemove (m : Elems) (elem : ℕ) : Option (Option ℕ × Elems) := do
  assert (← isInterior m elem)
  let m ← setNext m (← (← prev m elem)) (← next m elem)
  let m ← setPrev m (← (← next m elem)) (← prev m elem)
  return (← next m elem, m)

/-- `list_front(list)` -/
def listFront (m : Elems) (list : KList) : Option (Option ℕ) := do
  assert (!(← listEmpty m list))
  next m list.head

/-- `list_back(list)` -/
def listBack (m : Elems) (list : KList) : Option (Option ℕ) := do
  assert (!(← listEmpty m list))
  prev m list.tail

/-- `list_pop_front(list)`: the element and the cells. -/
def listPopFront (m : Elems) (list : KList) : Option (ℕ × Elems) := do
  let front ← (← listFront m list)
  let (_, m) ← listRemove m front
  return (front, m)

/-- `list_pop_back(list)`: the element and the cells. -/
def listPopBack (m : Elems) (list : KList) : Option (ℕ × Elems) := do
  let back ← (← listBack m list)
  let (_, m) ← listRemove m back
  return (back, m)

/-- `swap(&a->prev, &b->next)` -/
def swapPrevNext (m : Elems) (a b : ℕ) : Option Elems := do
  let t ← prev m a
  let m ← setPrev m a (← next m b)
  setNext m b t

/-- One round of the loop of `list_reverse`. -/
def reverseBody (list : KList) : Elems × Option ℕ → Option ((Elems × Option ℕ) ⊕ Elems)
  | (m, e) => do
    if e = some (listEnd list) then return .inr m
    else
      let e ← e
      let m ← swapPrevNext m e e
      return .inl (m, ← prev m e)

/-- `list_reverse(list)` -/
def listReverse (fuel : ℕ) (m : Elems) (list : KList) : Option Elems := do
  if !(← listEmpty m list) then
    let m ← whileLoop (reverseBody list) fuel (m, ← listBegin m list)
    let m ← swapPrevNext m list.tail list.head
    swapPrevNext m (← (← next m list.head)) (← (← prev m list.tail))
  else return m

end Jungle.KernelList
