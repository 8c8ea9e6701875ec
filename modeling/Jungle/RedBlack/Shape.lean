import Jungle.RedBlack.Basic

/-!
# The tree in the store

`Holds others tree t` says that the cells of `t` are those of the tree, with links to the children and
to the parent and the sentinel in the place of the empty trees, and the cells of `others` elsewhere.
That fixes the state (`Holds.unique`). A tree in a hole splits into the cells of the frames, which
lead to the tree in the hole (`Frames`), and the cells of that tree (`rep_plug`), so that a step of
the program is an edit of few cells (`Rep.frame`, `Frames.frame`).
-/

set_option autoImplicit false
set_option relaxedAutoImplicit false

namespace Jungle.RedBlack

open BinaryTree Jungle.Lib

/-- A tree of the colors, addresses and keys of nodes. -/
abbrev Tree := BinaryTree (Color × ℕ × ℤ)

/-- A path to a hole in a tree. -/
abbrev Path := List (Frame (Color × ℕ × ℤ))

/-- The pointer to a tree. -/
def ptr (nil : ℕ) : Tree → ℕ
  | .nil => nil
  | .node (_, a, _) _ _ => a

@[simp] theorem ptr_nil (nil : ℕ) : ptr nil .nil = nil := rfl

@[simp] theorem ptr_join (nil : ℕ) (s : Side) (v : Color × ℕ × ℤ) (near far : Tree) :
    ptr nil (join s v near far) = v.2.1 := by
  cases s <;> rfl

/-- The cell with the child on the side and the other child. -/
def Node.make (s : Side) (c : Color) (key : ℤ) (parent near far : ℕ) : Node :=
  match s with
  | .left => ⟨c, key, parent, near, far⟩
  | .right => ⟨c, key, parent, far, near⟩

section Make

variable (s : Side) (c : Color) (key : ℤ) (parent near far a : ℕ)

@[simp] theorem make_color : (Node.make s c key parent near far).color = c := by cases s <;> rfl

@[simp] theorem make_key : (Node.make s c key parent near far).key = key := by cases s <;> rfl

@[simp] theorem make_parent : (Node.make s c key parent near far).parent = parent := by
  cases s <;> rfl

@[simp] theorem make_child : (Node.make s c key parent near far).child s = near := by cases s <;> rfl

@[simp] theorem make_child_other :
    (Node.make s c key parent near far).child s.other = far := by cases s <;> rfl

@[simp] theorem make_withChild : (Node.make s c key parent near far).withChild a s =
    Node.make s c key parent a far := by cases s <;> rfl

@[simp] theorem make_withChild_other : (Node.make s c key parent near far).withChild a s.other =
    Node.make s c key parent near a := by cases s <;> rfl

@[simp] theorem make_withParent : { Node.make s c key parent near far with parent := a } =
    Node.make s c key a near far := by cases s <;> rfl

@[simp] theorem make_withColor (c' : Color) :
    { Node.make s c key parent near far with color := c' } =
      Node.make s c' key parent near far := by cases s <;> rfl

theorem make_other : Node.make s.other c key parent near far =
    Node.make s c key parent far near := by cases s <;> rfl

end Make

/-! ### Cells of trees -/

/-- The cells of a tree below a parent. -/
def Rep (nodes : Store Node) (nil : ℕ) : ℕ → Tree → Prop
  | _, .nil => True
  | parent, .node (c, a, k) left right =>
    nodes a = some ⟨c, k, parent, ptr nil left, ptr nil right⟩ ∧
      Rep nodes nil a left ∧ Rep nodes nil a right

/-- The addresses and keys of a tree in order. -/
def entries (t : Tree) : List (ℕ × ℤ) := (inorder t).map Prod.snd

@[simp] theorem entries_nil : entries .nil = [] := rfl

/-- The colors do not count, and neither do changes below a node that keep the entries. -/
theorem entries_join_congr (s : Side) {v v' : Color × ℕ × ℤ} {near near' far far' : Tree}
    (hv : v'.2 = v.2) (hnear : entries near' = entries near) (hfar : entries far' = entries far) :
    entries (join s v' near' far') = entries (join s v near far) := by
  unfold entries at *
  cases s <;> simp [join, hv, hnear, hfar]

theorem mem_entries_join (s : Side) (v : Color × ℕ × ℤ) (near far : Tree) :
    v.2 ∈ entries (join s v near far) := by
  unfold entries
  cases s <;> simp [join]

@[simp] theorem entries_paint (c : Color) (t : Tree) : entries (paint c t) = entries t := by
  cases t with
  | nil => rfl
  | node v left right => exact entries_join_congr .left rfl rfl rfl

theorem entries_rotate (s : Side) (v w : Color × ℕ × ℤ) (A B C : Tree) :
    entries (join s w (join s v A B) C) = entries (join s v A (join s w B C)) := by
  rw [entries, entries, inorder_rotate]

/-- The colors and a double rotation do not show in the entries. -/
theorem entries_double_rotate (s : Side) {v v' w w' u u' : Color × ℕ × ℤ} (hv : v'.2 = v.2)
    (hw : w'.2 = w.2) (hu : u'.2 = u.2) (A B C D : Tree) :
    entries (join s u' (join s v' A B) (join s w' C D)) =
      entries (join s v A (join s w (join s u B C) D)) := by
  unfold entries
  cases s <;> simp [join, hv, hw, hu]

/-- The entries around the hole. -/
theorem entries_plug (ctx : Path) (t : Tree) : entries (plug ctx t) =
    (before ctx).map Prod.snd ++ entries t ++ (after ctx).map Prod.snd := by
  rw [entries, inorder_plug, List.map_append, List.map_append, entries]

theorem entries_plug_congr (ctx : Path) {t t' : Tree} (h : entries t' = entries t) :
    entries (plug ctx t') = entries (plug ctx t) := by
  rw [entries_plug, entries_plug, h]

/-- The addresses of a tree. -/
def addresses (t : Tree) : List ℕ := (inorder t).map fun v ↦ v.2.1

theorem addresses_eq (t : Tree) : addresses t = (entries t).map Prod.fst := by
  rw [addresses, entries, List.map_map]
  rfl

@[simp] theorem addresses_nil : addresses .nil = [] := rfl

theorem mem_addresses_join {s : Side} {v : Color × ℕ × ℤ} {near far : Tree} {a : ℕ} :
    a ∈ addresses (join s v near far) ↔ a = v.2.1 ∨ a ∈ addresses near ∨ a ∈ addresses far := by
  cases s
  · simp only [addresses, join, inorder_node, List.map_append, List.map_cons, List.mem_append,
      List.mem_cons]
    tauto
  · simp only [addresses, join, inorder_node, List.map_append, List.map_cons, List.mem_append,
      List.mem_cons]
    tauto

theorem mem_addresses_node {v : Color × ℕ × ℤ} {left right : Tree} {a : ℕ} :
    a ∈ addresses (node v left right) ↔ a = v.2.1 ∨ a ∈ addresses left ∨ a ∈ addresses right :=
  mem_addresses_join (s := .left)

theorem perm_addresses_join (s : Side) (v : Color × ℕ × ℤ) (near far : Tree) :
    (addresses (join s v near far)).Perm (v.2.1 :: (addresses near ++ addresses far)) := by
  cases s
  · simp only [addresses, join, inorder_node, List.map_append, List.map_cons]
    exact List.perm_middle
  · simp only [addresses, join, inorder_node, List.map_append, List.map_cons]
    exact List.perm_middle.trans (List.perm_append_comm.cons _)

variable {nodes nodes' : Store Node} {nil parent : ℕ} {s : Side} {c : Color} {a : ℕ} {k : ℤ}
  {near far : Tree}

theorem rep_join : Rep nodes nil parent (join s (c, a, k) near far) ↔
    nodes a = some (Node.make s c k parent (ptr nil near) (ptr nil far)) ∧
      Rep nodes nil a near ∧ Rep nodes nil a far := by
  cases s
  · exact Iff.rfl
  · exact and_congr_right fun _ ↦ and_comm

/-- The cells of a tree in another store that agrees on them. -/
theorem Rep.frame {tree : Tree} (h : Rep nodes nil parent tree)
    (hsame : ∀ b ∈ addresses tree, nodes' b = nodes b) : Rep nodes' nil parent tree := by
  induction tree generalizing parent with
  | nil => trivial
  | node v left right ihLeft ihRight =>
    obtain ⟨c, a, k⟩ := v
    have hmem : ∀ b, b = a ∨ b ∈ addresses left ∨ b ∈ addresses right → nodes' b = nodes b :=
      fun b hb ↦ hsame b (mem_addresses_node.mpr hb)
    obtain ⟨hcell, hleft, hright⟩ := h
    exact ⟨(hmem a (Or.inl rfl)).trans hcell, ihLeft hleft fun b hb ↦ hmem b (Or.inr (Or.inl hb)),
      ihRight hright fun b hb ↦ hmem b (Or.inr (Or.inr hb))⟩

/-- The cells of a tree fix the contents of its addresses. -/
theorem Rep.eq {tree : Tree} (h : Rep nodes nil parent tree) (h' : Rep nodes' nil parent tree) {b : ℕ}
    (hb : b ∈ addresses tree) : nodes' b = nodes b := by
  induction tree generalizing parent with
  | nil => exact absurd hb List.not_mem_nil
  | node v left right ihLeft ihRight =>
    obtain ⟨c, a, k⟩ := v
    obtain ⟨hcell, hleft, hright⟩ := h
    obtain ⟨hcell', hleft', hright'⟩ := h'
    rcases mem_addresses_node.mp hb with rfl | hb | hb
    · exact hcell'.trans hcell.symm
    · exact ihLeft hleft hleft' hb
    · exact ihRight hright hright' hb

/-- The addresses of a tree hold cells. -/
theorem Rep.allocated {tree : Tree} (h : Rep nodes nil parent tree) {b : ℕ}
    (hb : b ∈ addresses tree) : nodes b ≠ none := by
  induction tree generalizing parent with
  | nil => exact absurd hb List.not_mem_nil
  | node v left right ihLeft ihRight =>
    obtain ⟨c, a, k⟩ := v
    obtain ⟨hcell, hleft, hright⟩ := h
    rcases mem_addresses_node.mp hb with rfl | hb | hb
    · rw [hcell]
      exact Option.some_ne_none _
    · exact ihLeft hleft hb
    · exact ihRight hright hb

/-- A pointer to a tree leads to its first node, or to the sentinel. -/
theorem ptr_mem (nil : ℕ) (tree : Tree) : tree = .nil ∨ ptr nil tree ∈ addresses tree := by
  cases tree with
  | nil => exact Or.inl rfl
  | node v left right => exact Or.inr (mem_addresses_node.mpr (Or.inl rfl))

/-! ### Cells of frames -/

/-- The parent of the tree in the hole. -/
def parentOf (nil : ℕ) : Path → ℕ
  | [] => nil
  | f :: _ => f.value.2.1

@[simp] theorem parentOf_cons (nil : ℕ) (f : Frame (Color × ℕ × ℤ)) (ctx : Path) :
    parentOf nil (f :: ctx) = f.value.2.1 := rfl

/-- The pointer to the root of the whole tree, given the pointer in the hole. -/
def rootOf : Path → ℕ → ℕ
  | [], hole => hole
  | f :: ctx, _ => rootOf ctx f.value.2.1

/-- The addresses of the frames and of their trees. -/
def outer : Path → List ℕ
  | [] => []
  | f :: ctx => f.value.2.1 :: (addresses f.sibling ++ outer ctx)

theorem rootOf_mem (f : Frame (Color × ℕ × ℤ)) (ctx : Path) (hole : ℕ) :
    rootOf (f :: ctx) hole ∈ outer (f :: ctx) := by
  induction ctx generalizing f hole with
  | nil => exact List.mem_cons_self
  | cons f' ctx ih => exact List.mem_cons_of_mem _ (List.mem_append_right _ (ih f' f.value.2.1))

/-- The cells of the frames, with the given pointer in the place of the hole. -/
def Frames (nodes : Store Node) (nil : ℕ) : ℕ → Path → Prop
  | _, [] => True
  | hole, ⟨s, (c, a, k), sibling⟩ :: ctx =>
    nodes a = some (Node.make s c k (parentOf nil ctx) hole (ptr nil sibling)) ∧
      Rep nodes nil a sibling ∧ Frames nodes nil a ctx

variable {ctx : Path} {hole : ℕ} {tree : Tree}

theorem Frames.frame (h : Frames nodes nil hole ctx)
    (hsame : ∀ b ∈ outer ctx, nodes' b = nodes b) : Frames nodes' nil hole ctx := by
  induction ctx generalizing hole with
  | nil => trivial
  | cons f ctx ih =>
    obtain ⟨s, ⟨c, a, k⟩, sibling⟩ := f
    obtain ⟨hcell, hsibling, hrest⟩ := h
    have hmem : ∀ b, b = a ∨ b ∈ addresses sibling ∨ b ∈ outer ctx → nodes' b = nodes b :=
      fun b hb ↦ hsame b (List.mem_cons.mpr (hb.imp_right List.mem_append.mpr))
    exact ⟨(hmem a (Or.inl rfl)).trans hcell,
      hsibling.frame fun b hb ↦ hmem b (Or.inr (Or.inl hb)),
      ih hrest fun b hb ↦ hmem b (Or.inr (Or.inr hb))⟩

theorem ptr_plug (nil : ℕ) (ctx : Path) (tree : Tree) :
    ptr nil (plug ctx tree) = rootOf ctx (ptr nil tree) := by
  induction ctx generalizing tree with
  | nil => rfl
  | cons f ctx ih => rw [plug_cons, ih, Frame.fill, ptr_join, rootOf]

theorem perm_addresses_plug (ctx : Path) (tree : Tree) :
    (addresses (plug ctx tree)).Perm (addresses tree ++ outer ctx) := by
  induction ctx generalizing tree with
  | nil =>
    rw [plug_nil, outer, List.append_nil]
  | cons f ctx ih =>
    rw [plug_cons, outer]
    calc (addresses (plug ctx (f.fill tree))).Perm (addresses (f.fill tree) ++ outer ctx) := ih _
      _ |>.Perm (f.value.2.1 :: (addresses tree ++ addresses f.sibling) ++ outer ctx) :=
        (perm_addresses_join ..).append_right _
      _ |>.Perm (addresses tree ++ f.value.2.1 :: (addresses f.sibling ++ outer ctx)) := by
        rw [List.cons_append, List.append_assoc]
        exact List.perm_middle.symm

/-- The cells of a tree in a hole are those of the frames and those of the tree. -/
theorem rep_plug : Rep nodes nil nil (plug ctx tree) ↔
    Frames nodes nil (ptr nil tree) ctx ∧ Rep nodes nil (parentOf nil ctx) tree := by
  induction ctx generalizing tree with
  | nil => exact ⟨fun h ↦ ⟨trivial, h⟩, fun h ↦ h.2⟩
  | cons f ctx ih =>
    obtain ⟨s, ⟨c, a, k⟩, sibling⟩ := f
    rw [plug_cons, ih, Frame.fill, ptr_join, rep_join, Frames, parentOf]
    tauto

/-! ### States -/

/-- The cells are those of the tree, and those of `others` elsewhere, the sentinel's among them. -/
structure Holds (others : Store Node) (nil : ℕ) (tree : Tree) (t : RbTree) : Prop where
  nil_eq : t.nil = nil
  root : t.root = ptr nil tree
  rep : Rep t.nodes nil nil tree
  nodup : (addresses tree).Nodup
  nil : nil ∉ addresses tree
  outside : ∀ a ∉ addresses tree, t.nodes a = others a

/-- The sentinel is black and has no children, and its parent is as given. -/
def Sentinel (others : Store Node) (nil parent : ℕ) : Prop :=
  ∃ k, others nil = some ⟨.black, k, parent, nil, nil⟩

variable {others : Store Node} {t t' : RbTree}

/-- The tree and the other cells fix the state. -/
theorem Holds.unique (h : Holds others nil tree t) (h' : Holds others nil tree t') : t' = t := by
  obtain ⟨root, nil', nodes⟩ := t
  obtain ⟨root', nil'', nodes'⟩ := t'
  obtain rfl : nil'' = nil' := h'.nil_eq.trans h.nil_eq.symm
  obtain rfl : root' = root := h'.root.trans h.root.symm
  obtain rfl : nodes' = nodes := by
    ext1 a
    by_cases ha : a ∈ addresses tree
    · exact h.rep.eq h'.rep ha
    · exact (h'.outside a ha).trans (h.outside a ha).symm
  rfl

end Jungle.RedBlack
