import Jungle.RedBlack.Steps

/-!
# The two rotations

A rotation at a node that has the child it brings up keeps the nodes with their colors and keys in order,
and the opposite rotation at that child takes it back (`rotations_inverse`).
-/

set_option autoImplicit false
set_option relaxedAutoImplicit false

namespace Jungle.RedBlack

open BinaryTree Jungle.Lib

variable {t : RbTree} {tree : Tree} {s : Side} {x y : ℕ}

/-- A node with the child that a rotation brings up. -/
theorem Holds.exists_pivot (h : Holds t.nodes t.nil tree t) (hx : x ∈ addresses tree)
    (hchild : t.child s.other x = some y) (hy : y ≠ t.nil) : ∃ ctx c k d l A B C,
      tree = plug ctx (join s (c, x, k) A (join s (d, y, l) B C)) := by
  obtain ⟨⟨c, a, k⟩, hv, rfl⟩ := List.mem_map.mp hx
  obtain ⟨ctx, left, right, rfl⟩ := exists_plug hv
  obtain ⟨A, far, hnode⟩ := exists_join_eq .left s (c, a, k) left right
  change node (c, a, k) left right = _ at hnode
  rw [hnode] at h ⊢
  obtain rfl := Option.some.inj (h.root_far.symm.trans hchild)
  have hfar : far ≠ .nil := by
    rintro rfl
    exact hy rfl
  obtain ⟨⟨d, b, l⟩, B, C, rfl⟩ := exists_join s hfar
  rw [ptr_join]
  exact ⟨ctx, c, k, d, l, A, B, C, rfl⟩

/-- A rotation turns the tree into another one with the same nodes in order and leaves the sentinel; the
opposite one takes it back. -/
def Turns (t : RbTree) (tree : Tree) (there back : RbTree → Option RbTree) : Prop :=
  ∃ t' tree', there t = some t' ∧ Holds t.nodes t.nil tree' t' ∧ inorder tree' = inorder tree ∧
    t'.nodes t.nil = t.nodes t.nil ∧ back t' = some t

theorem Holds.turns (h : Holds t.nodes t.nil tree t) (hx : x ∈ addresses tree)
    (hchild : t.child s.other x = some y) (hy : y ≠ t.nil) :
    Turns t tree (fun t ↦ t.rotate s x) fun t ↦ t.rotate s.other y := by
  obtain ⟨ctx, c, k, d, l, A, B, C, rfl⟩ := h.exists_pivot hx hchild hy
  obtain ⟨t', hthere, h'⟩ := h.rotate
  have hturned := h'
  rw [← join_other s (d, y, l), ← join_other s (c, x, k)] at hturned
  obtain ⟨t'', hback, h''⟩ := hturned.rotate
  rw [join_other s (c, x, k), join_other s (d, y, l)] at h''
  refine ⟨t', _, hthere, h', ?_, h'.outside _ h'.nil, ?_⟩
  · rw [inorder_plug, inorder_plug, inorder_rotate]
  · rw [h.unique h''] at hback
    exact hback

/-- `left_rotate(t, x)` at a node with a right child and `right_rotate(t, x)` at a node with a left child keep
the nodes in order, and each takes the other back. -/
theorem rotations_inverse (h : Holds t.nodes t.nil tree t) (hx : x ∈ addresses tree) :
    (∀ y, t.child .right x = some y → y ≠ t.nil →
      Turns t tree (fun t ↦ t.leftRotate x) fun t ↦ t.rightRotate y) ∧
    ∀ y, t.child .left x = some y → y ≠ t.nil →
      Turns t tree (fun t ↦ t.rightRotate x) fun t ↦ t.leftRotate y :=
  ⟨fun _ hchild hy ↦ Holds.turns (s := .left) h hx hchild hy,
    fun _ hchild hy ↦ Holds.turns (s := .right) h hx hchild hy⟩

/-- A root with a right child. -/
def pair : RbTree where
  root := 1
  nil := 0
  nodes
    | 0 => some ⟨.black, 0, 0, 0, 0⟩
    | 1 => some ⟨.black, 10, 0, 0, 2⟩
    | 2 => some ⟨.red, 20, 1, 0, 0⟩
    | _ => none

theorem holds_pair : Holds pair.nodes pair.nil
    (node (.black, 1, 10) .nil (node (.red, 2, 20) .nil .nil)) pair :=
  ⟨rfl, rfl, ⟨rfl, trivial, rfl, trivial, trivial⟩, by decide, by decide, fun _ _ ↦ rfl⟩

theorem rotations_inverse_pair : Turns pair (node (.black, 1, 10) .nil (node (.red, 2, 20) .nil .nil))
    (fun t ↦ t.leftRotate 1) fun t ↦ t.rightRotate 2 :=
  (rotations_inverse holds_pair (by decide)).1 2 rfl (by decide)

end Jungle.RedBlack
