import Mathlib.Data.List.Pairwise
import Mathlib.Data.Tree.Basic
import Mathlib.Tactic.Common

/-!
# In-order sequences of binary trees

`inorder` lists the values of a binary tree from left to right. `OrderedBy r` says of a tree that
at every node the values on the left are `r`-related to the value of the node and that value is
`r`-related to the values on the right. For a transitive relation that is the order of the in-order
sequence (`orderedBy_iff_pairwise`), so that what rebuilds a tree without changing its in-order
sequence keeps it ordered. `firstOr` is the leftmost value.
-/

set_option autoImplicit false
set_option relaxedAutoImplicit false

namespace Jungle.Lib

open BinaryTree

variable {Value : Type*}

/-- The values of a tree from left to right. -/
def inorder : BinaryTree Value → List Value
  | nil => []
  | node v left right => inorder left ++ v :: inorder right

@[simp] theorem inorder_nil : inorder (nil : BinaryTree Value) = [] := rfl

@[simp] theorem inorder_node (v : Value) (left right : BinaryTree Value) :
    inorder (node v left right) = inorder left ++ v :: inorder right := rfl

theorem length_inorder (t : BinaryTree Value) : (inorder t).length = t.numNodes := by
  induction t with
  | nil => rfl
  | node v left right ihLeft ihRight =>
    rw [inorder_node, List.length_append, List.length_cons, ihLeft, ihRight, numNodes, Nat.add_assoc]

theorem inorder_eq_nil {t : BinaryTree Value} : inorder t = [] ↔ t = nil := by
  cases t <;> simp

/-- At every node the values on the left are related to the value there, and that value to the
values on the right. -/
def OrderedBy (r : Value → Value → Prop) : BinaryTree Value → Prop
  | nil => True
  | node v left right =>
    OrderedBy r left ∧ OrderedBy r right ∧ (∀ w ∈ inorder left, r w v) ∧ ∀ w ∈ inorder right, r v w

/-- For a transitive relation a tree is ordered if and only if its in-order sequence is. -/
theorem orderedBy_iff_pairwise {r : Value → Value → Prop}
    (htrans : ∀ u v w, r u v → r v w → r u w) (t : BinaryTree Value) :
    OrderedBy r t ↔ (inorder t).Pairwise r := by
  induction t with
  | nil => simp [OrderedBy]
  | node v left right ihLeft ihRight =>
    rw [OrderedBy, ihLeft, ihRight, inorder_node, List.pairwise_append, List.pairwise_cons]
    constructor
    · rintro ⟨hleft, hright, hbelow, habove⟩
      refine ⟨hleft, ⟨habove, hright⟩, fun u hu w hw ↦ ?_⟩
      rcases List.mem_cons.mp hw with rfl | hw
      · exact hbelow u hu
      · exact htrans u v w (hbelow u hu) (habove w hw)
    · rintro ⟨hleft, ⟨habove, hright⟩, hacross⟩
      exact ⟨hleft, hright, fun w hw ↦ hacross w hw v List.mem_cons_self, habove⟩

/-- The leftmost value of a tree, `v` if there is none. -/
def firstOr (v : Value) : BinaryTree Value → Value
  | nil => v
  | node w left _ => firstOr w left

/-- The leftmost value comes first in the in-order sequence. -/
theorem head?_inorder (v : Value) {t : BinaryTree Value} (h : t ≠ nil) :
    (inorder t).head? = some (firstOr v t) := by
  induction t generalizing v with
  | nil => exact absurd rfl h
  | node w left right ihLeft _ =>
    rw [inorder_node, List.head?_append, firstOr]
    by_cases hleft : left = nil
    · rw [hleft]
      rfl
    · rw [ihLeft w hleft]
      rfl

end Jungle.Lib
