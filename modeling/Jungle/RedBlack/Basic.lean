import Jungle.Lib.Loop
import Jungle.Lib.RedBlack
import Jungle.Lib.Store
import Mathlib.Data.Int.Notation

/-!
# The red-black tree of the lab

`rbtree-lab/src/rbtree.c`, built with `SENTINEL`. The store holds the `node_t` cells, the shared
sentinel `nil` among them; no pointer is `NULL` in this build, so pointers are addresses and the
checks for `NULL` are left out. A call faults, with `none`, where it follows a pointer to no cell or
frees a cell that is not there. The halves of the two fix-up loops and the two rotations, which are
mirror images, are one definition with a side. The argument `new` is what `malloc` returns, and
`fuel` bounds the rounds of each loop.
-/

set_option autoImplicit false
set_option relaxedAutoImplicit false

namespace Jungle.RedBlack

open Jungle.Lib

/-- `node_t` -/
structure Node where
  color : Color
  key : ℤ
  parent : ℕ
  left : ℕ
  right : ℕ
deriving DecidableEq, Repr

/-- The child on a side. -/
def Node.child (n : Node) : Side → ℕ
  | .left => n.left
  | .right => n.right

/-- The node with another child on a side. -/
def Node.withChild (n : Node) (a : ℕ) : Side → Node
  | .left => { n with left := a }
  | .right => { n with right := a }

/-- `rbtree`, with the cells. -/
structure RbTree where
  root : ℕ
  nil : ℕ
  nodes : Store Node

namespace RbTree

/-! ### Fields -/

def color (t : RbTree) (a : ℕ) : Option Color := (t.nodes a).map Node.color

def key (t : RbTree) (a : ℕ) : Option ℤ := (t.nodes a).map Node.key

def parent (t : RbTree) (a : ℕ) : Option ℕ := (t.nodes a).map Node.parent

def child (t : RbTree) (s : Side) (a : ℕ) : Option ℕ := (t.nodes a).map fun n ↦ n.child s

/-- Changes the cell at an address; faults if there is none. -/
def modify (t : RbTree) (a : ℕ) (change : Node → Node) : Option RbTree :=
  (t.nodes a).map fun n ↦ { t with nodes := t.nodes.put a (change n) }

def setColor (t : RbTree) (a : ℕ) (c : Color) : Option RbTree :=
  t.modify a fun n ↦ { n with color := c }

def setParent (t : RbTree) (a p : ℕ) : Option RbTree := t.modify a fun n ↦ { n with parent := p }

def setChild (t : RbTree) (s : Side) (a b : ℕ) : Option RbTree :=
  t.modify a fun n ↦ n.withChild b s

/-! ### Rotations -/

/-- Makes `v` the child of `parent` in the place of `u`, looking for `u` on the side `first`; if
there is no parent, `v` becomes the root. -/
def relink (t : RbTree) (first : Side) (parent u v : ℕ) : Option RbTree := do
  if parent = t.nil then return { t with root := v }
  else if (← t.child first parent) = u then t.setChild first parent v
  else t.setChild first.other parent v

/-- `if (a != t->nil) a->parent = p` -/
def setParentUnlessNil (t : RbTree) (a p : ℕ) : Option RbTree :=
  if a = t.nil then some t else t.setParent a p

/-- The rotation at `x` that brings up its child on the other side. -/
def rotate (t : RbTree) (s : Side) (x : ℕ) : Option RbTree := do
  let up ← t.child s.other x
  if up = t.nil then return t
  let t ← t.setChild s.other x (← t.child s up)
  let t ← t.setParentUnlessNil (← t.child s up) x
  let parent ← t.parent x
  let t ← t.setParent up parent
  let t ← t.relink s parent x up
  let t ← t.setChild s up x
  t.setParent x up

/-- `left_rotate(t, x)` -/
def leftRotate (t : RbTree) (x : ℕ) : Option RbTree := t.rotate .left x

/-- `right_rotate(t, y)` -/
def rightRotate (t : RbTree) (y : ℕ) : Option RbTree := t.rotate .right y

/-! ### Insertion -/

/-- `newNode(t, key)` -/
def newNode (t : RbTree) (key : ℤ) (new : ℕ) : RbTree :=
  { t with nodes := t.nodes.put new ⟨.red, key, t.nil, t.nil, t.nil⟩ }

/-- The half of the loop of `rbtree_fixup` where the parent of `z` is a child on the side. -/
def fixupSide (s : Side) (t : RbTree) (z : ℕ) : Option (RbTree × ℕ) := do
  let parent ← t.parent z
  let grandparent ← t.parent parent
  let uncle ← t.child s.other grandparent
  if (← t.color uncle) = .red then
    let t ← t.setColor parent .black
    let t ← t.setColor uncle .black
    let t ← t.setColor grandparent .red
    return (t, grandparent)
  else
    let (t, z) ← if z = (← t.child s.other parent) then
        (t.rotate s parent).map fun t ↦ (t, parent)
      else some (t, z)
    let parent ← t.parent z
    let t ← t.setColor parent .black
    let grandparent ← t.parent parent
    let t ← t.setColor grandparent .red
    let t ← t.rotate s.other grandparent
    return (t, z)

/-- One round of the loop of `rbtree_fixup`. -/
def fixupBody : RbTree × ℕ → Option ((RbTree × ℕ) ⊕ RbTree)
  | (t, z) => do
    let parent ← t.parent z
    if (← t.color parent) = .red then
      let grandparent ← t.parent parent
      if parent = (← t.child .left grandparent) then (fixupSide .left t z).map .inl
      else (fixupSide .right t z).map .inl
    else return .inr t

/-- `rbtree_fixup(t, z)` -/
def rbtreeFixup (fuel : ℕ) (t : RbTree) (z : ℕ) : Option RbTree := do
  let t ← whileLoop fixupBody fuel (t, z)
  t.setColor t.root .black

/-- One round of the descent of `rbtree_insert`: `x` and its parent `y`. -/
def descendBody (t : RbTree) (key : ℤ) : ℕ × ℕ → Option ((ℕ × ℕ) ⊕ ℕ)
  | (x, y) => do
    if x = t.nil then return .inr y
    else if key < (← t.key x) then return .inl (← t.child .left x, x)
    else return .inl (← t.child .right x, x)

/-- Makes the new node a child of `y`, or the root if there is no parent. -/
def link (t : RbTree) (y new : ℕ) (key : ℤ) : Option RbTree := do
  if y = t.nil then return { t with root := new }
  else if key < (← t.key y) then t.setChild .left y new
  else t.setChild .right y new

/-- `rbtree_insert(t, key)`: the returned pointer and the tree. -/
def rbtreeInsert (fuel : ℕ) (t : RbTree) (key : ℤ) (new : ℕ) : Option (ℕ × RbTree) := do
  let t := t.newNode key new
  let y ← whileLoop (t.descendBody key) fuel (t.root, t.nil)
  let t ← t.setParent new y
  let t ← t.link y new key
  let t ← rbtreeFixup fuel t new
  return (new, t)

/-! ### Lookups -/

/-- One round of the loop of `rbtree_find`. -/
def findBody (t : RbTree) (key : ℤ) (node : ℕ) : Option (ℕ ⊕ ℕ) := do
  if node = t.nil then return .inr t.nil
  else if (← t.key node) = key then return .inr node
  else if (← t.key node) > key then return .inl (← t.child .left node)
  else return .inl (← t.child .right node)

/-- `rbtree_find(t, key)` -/
def rbtreeFind (fuel : ℕ) (t : RbTree) (key : ℤ) : Option ℕ :=
  if t.root = t.nil then some t.nil else whileLoop (t.findBody key) fuel t.root

/-- One round of a walk along the children on a side. -/
def walkBody (t : RbTree) (s : Side) (node : ℕ) : Option (ℕ ⊕ ℕ) := do
  if (← t.child s node) = t.nil then return .inr node else return .inl (← t.child s node)

/-- `rbtree_min(t)` -/
def rbtreeMin (fuel : ℕ) (t : RbTree) : Option ℕ :=
  if t.root = t.nil then some t.nil else whileLoop (t.walkBody .left) fuel t.root

/-- `rbtree_max(t)` -/
def rbtreeMax (fuel : ℕ) (t : RbTree) : Option ℕ :=
  if t.root = t.nil then some t.nil else whileLoop (t.walkBody .right) fuel t.root

/-- `tree_minimum(t, x)` -/
def treeMinimum (fuel : ℕ) (t : RbTree) (x : ℕ) : Option ℕ := whileLoop (t.walkBody .left) fuel x

/-! ### Deletion -/

/-- `rbtree_transplant(t, u, v)` -/
def rbtreeTransplant (t : RbTree) (u v : ℕ) : Option RbTree := do
  let t ← t.relink .left (← t.parent u) u v
  t.setParent v (← t.parent u)

/-- What `rbtree_delete_fixup` takes for the sibling of `x` after it has rotated a red sibling `w`
up. The halves of the loop differ here: one looks below the parent of `w`, the other one below the
parent of `x`. -/
def nextSibling (t : RbTree) (x w : ℕ) : Side → Option ℕ
  | .left => do t.child .right (← t.parent w)
  | .right => do t.child .left (← t.parent x)

/-- Whether both children of `w` are black, the one on the side first. -/
def bothBlack (t : RbTree) (s : Side) (w : ℕ) : Option Bool := do
  if (← t.color (← t.child s w)) = .black then
    return (← t.color (← t.child s.other w)) = .black
  else return false

/-- The first case of `rbtree_delete_fixup`, which rotates a red sibling of `x` up: the tree and the
sibling `w`. -/
def settleSibling (s : Side) (t : RbTree) (x : ℕ) : Option (RbTree × ℕ) := do
  let w ← t.child s.other (← t.parent x)
  if (← t.color w) = .red then
    let t ← t.setColor w .black
    let t ← t.setColor (← t.parent x) .red
    let t ← t.rotate s (← t.parent x)
    return (t, ← t.nextSibling x w s)
  else return (t, w)

/-- The third case, which rotates a red near child of `w` up if the far one is black: the tree and
the sibling `w`. -/
def turnSibling (s : Side) (t : RbTree) (x w : ℕ) : Option (RbTree × ℕ) := do
  if (← t.color (← t.child s.other w)) = .black then
    let t ← t.setColor (← t.child s w) .black
    let t ← t.setColor w .red
    let t ← t.rotate s.other w
    return (t, ← t.child s.other (← t.parent x))
  else return (t, w)

/-- The fourth case, which rotates `w` with a red far child up: the tree and its root. -/
def raiseSibling (s : Side) (t : RbTree) (x w : ℕ) : Option (RbTree × ℕ) := do
  let t ← t.setColor w (← t.color (← t.parent x))
  let t ← t.setColor (← t.parent x) .black
  let t ← t.setColor (← t.child s.other w) .black
  let t ← t.rotate s (← t.parent x)
  return (t, t.root)

/-- The second case, which makes a sibling `w` with black children red and goes on from the parent, or
the third and the fourth one: the tree and the next `x`. -/
def balanceSibling (s : Side) (t : RbTree) (x w : ℕ) : Option (RbTree × ℕ) := do
  if ← t.bothBlack s w then
    let t ← t.setColor w .red
    return (t, ← t.parent x)
  else
    let (t, w) ← turnSibling s t x w
    raiseSibling s t x w

/-- The half of the loop of `rbtree_delete_fixup` where `x` is a child on the side: the tree and the
next `x`. -/
def deleteFixupSide (s : Side) (t : RbTree) (x : ℕ) : Option (RbTree × ℕ) := do
  let (t, w) ← settleSibling s t x
  balanceSibling s t x w

/-- One round of the loop of `rbtree_delete_fixup`. -/
def deleteFixupBody : RbTree × ℕ → Option ((RbTree × ℕ) ⊕ (RbTree × ℕ))
  | (t, x) => do
    if x = t.root then return .inr (t, x)
    else if (← t.color x) = .black then
      if x = (← t.child .left (← t.parent x)) then (deleteFixupSide .left t x).map .inl
      else (deleteFixupSide .right t x).map .inl
    else return .inr (t, x)

/-- `rbtree_delete_fixup(t, x)` -/
def rbtreeDeleteFixup (fuel : ℕ) (t : RbTree) (x : ℕ) : Option RbTree := do
  let (t, x) ← whileLoop deleteFixupBody fuel (t, x)
  t.setColor x .black

/-- Takes the successor `y` of `z` out of its place, where its right child `x` goes, and makes it the
root of the right tree of `z`. -/
def detachSuccessor (t : RbTree) (z y x : ℕ) : Option RbTree := do
  if y = (← t.child .right z) then t.setParent x y
  else
    let t ← t.rbtreeTransplant y (← t.child .right y)
    let t ← t.setChild .right y (← t.child .right z)
    t.setParent (← t.child .right y) y

/-- Gives `y` the place, the left child and the color of `z`. -/
def takePlace (t : RbTree) (z y : ℕ) : Option RbTree := do
  let t ← t.rbtreeTransplant z y
  let t ← t.setChild .left y (← t.child .left z)
  let t ← t.setParent (← t.child .left y) y
  t.setColor y (← t.color z)

/-- `rbtree_erase` up to the fix-up: the tree, `x` and `y_original_color`. -/
def unlinkNode (fuel : ℕ) (t : RbTree) (z : ℕ) : Option (RbTree × ℕ × Color) := do
  if (← t.child .left z) = t.nil then
    let x ← t.child .right z
    return (← t.rbtreeTransplant z x, x, ← t.color z)
  else if (← t.child .right z) = t.nil then
    let x ← t.child .left z
    return (← t.rbtreeTransplant z x, x, ← t.color z)
  else
    let y ← t.treeMinimum fuel (← t.child .right z)
    let yOriginalColor ← t.color y
    let x ← t.child .right y
    let t ← t.detachSuccessor z y x
    let t ← t.takePlace z y
    return (t, x, yOriginalColor)

/-- `free(z)` -/
def freeNode (t : RbTree) (z : ℕ) : Option RbTree :=
  (t.nodes z).map fun _ ↦ { t with nodes := t.nodes.free z }

/-- `rbtree_erase(t, z)`, which returns 0. -/
def rbtreeErase (fuel : ℕ) (t : RbTree) (z : ℕ) : Option RbTree := do
  let (t, x, yOriginalColor) ← t.unlinkNode fuel z
  if yOriginalColor = .black then
    let t ← t.rbtreeDeleteFixup fuel x
    t.freeNode z
  else t.freeNode z

end RbTree

/-- `new_rbtree()`, given the address of the sentinel. -/
def newRbtree (nodes : Store Node) (nil : ℕ) : RbTree :=
  ⟨nil, nil, nodes.put nil ⟨.black, 0, nil, nil, nil⟩⟩

end Jungle.RedBlack
