import Jungle.Lib.Loop
import Jungle.Lib.Store
import Mathlib.Data.Int.Notation

/-!
# The binary search tree of the exercises

`insertBSTNode` and `removeNodeFromTree` of `Data-Structures/tests/binary_search_tree.c`. The store
holds the `BSTNode` cells; a call faults, with `none`, where it follows a pointer to no cell, and
when its recursion is deeper than the bound `fuel`. The pointer-to-pointer argument of
`insertBSTNode` is passed as the pointer it leads to and returned as the pointer found there
afterwards. The argument `new` is what `malloc` returns, `none` being `NULL`.
-/

set_option autoImplicit false
set_option relaxedAutoImplicit false

namespace Jungle.SearchTrees

open Jungle.Lib

/-- A node of a search tree. -/
structure BSTNode where
  item : ℤ
  left : Option ℕ
  right : Option ℕ
deriving DecidableEq, Repr

/-- `insertBSTNode(node, value)`: the pointer left in `*node` and the store afterwards. -/
def insertBSTNode : ℕ → Store BSTNode → Option ℕ → ℤ → Option ℕ →
    Option (Option ℕ × Store BSTNode)
  | 0, _, _, _, _ => none
  | _ + 1, nodes, none, _, none => some (none, nodes)
  | _ + 1, nodes, none, value, some new => some (some new, nodes.put new ⟨value, none, none⟩)
  | fuel + 1, nodes, some a, value, new => do
    let n ← nodes a
    if value < n.item then
      let (left, nodes') ← insertBSTNode fuel nodes n.left value new
      let n' ← nodes' a
      return (some a, nodes'.put a { n' with left := left })
    else if value > n.item then
      let (right, nodes') ← insertBSTNode fuel nodes n.right value new
      let n' ← nodes' a
      return (some a, nodes'.put a { n' with right := right })
    else return (some a, nodes)

/-- One round of the loop that looks for the successor: it steps to the left while it can. -/
def successorBody (nodes : Store BSTNode) (succ : ℕ) : Option (ℕ ⊕ ℕ) := do
  let n ← nodes succ
  match n.left with
  | none => return .inr succ
  | some left => return .inl left

/-- `removeNodeFromTree(root, value)`: the returned pointer and the store afterwards. -/
def removeNodeFromTree : ℕ → Store BSTNode → Option ℕ → ℤ → Option (Option ℕ × Store BSTNode)
  | 0, _, _, _ => none
  | _ + 1, nodes, none, _ => some (none, nodes)
  | fuel + 1, nodes, some root, value => do
    let n ← nodes root
    if value < n.item then
      let (left, nodes') ← removeNodeFromTree fuel nodes n.left value
      let n' ← nodes' root
      return (some root, nodes'.put root { n' with left := left })
    else if value > n.item then
      let (right, nodes') ← removeNodeFromTree fuel nodes n.right value
      let n' ← nodes' root
      return (some root, nodes'.put root { n' with right := right })
    else
      match n.left, n.right with
      | none, none => return (none, nodes.free root)
      | some _, some right =>
        let succ ← whileLoop (successorBody nodes) fuel right
        let s ← nodes succ
        let nodes₁ := nodes.put root { n with item := s.item }
        let (right', nodes₂) ← removeNodeFromTree fuel nodes₁ n.right s.item
        let n' ← nodes₂ root
        return (some root, nodes₂.put root { n' with right := right' })
      | some left, none => return (some left, nodes.free root)
      | none, some right => return (some right, nodes.free root)

end Jungle.SearchTrees
