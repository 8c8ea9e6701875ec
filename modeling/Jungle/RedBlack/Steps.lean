import Jungle.RedBlack.Shape

/-!
# Steps on trees in the store

What recoloring a node, a rotation and linking another tree to a parent do to the tree in the store.
-/

set_option autoImplicit false
set_option relaxedAutoImplicit false

namespace Jungle.RedBlack

open BinaryTree Jungle.Lib

variable {others : Store Node} {t : RbTree} {ctx : Path} {tree tree' : Tree} {s : Side} {c : Color}
  {a : ℕ} {k : ℤ} {near far : Tree} {nil : ℕ}

/-- The tree in the hole and the frames have different addresses, none of which is the sentinel. -/
theorem Holds.distinct (h : Holds others nil (plug ctx tree) t) :
    (addresses tree ++ outer ctx).Nodup ∧ nil ∉ addresses tree ++ outer ctx := by
  have hperm := perm_addresses_plug ctx tree
  exact ⟨hperm.nodup_iff.mp h.nodup, fun hmem ↦ h.nil (hperm.mem_iff.mpr hmem)⟩

/-- The tree in the hole replaced by one of the same addresses. -/
theorem Holds.edit {t' : RbTree} (h : Holds others nil (plug ctx tree) t) (hnil : t'.nil = t.nil)
    (hroot : t'.root = rootOf ctx (ptr nil tree'))
    (hframes : Frames t'.nodes nil (ptr nil tree') ctx)
    (hrep : Rep t'.nodes nil (parentOf nil ctx) tree')
    (hperm : (addresses tree').Perm (addresses tree))
    (hsame : ∀ b ∉ addresses tree ++ outer ctx, t'.nodes b = t.nodes b) :
    Holds others nil (plug ctx tree') t' := by
  have hall : (addresses (plug ctx tree')).Perm (addresses (plug ctx tree)) :=
    (perm_addresses_plug ctx tree').trans
      ((hperm.append_right _).trans (perm_addresses_plug ctx tree).symm)
  refine ⟨hnil.trans h.nil_eq, ?_, rep_plug.mpr ⟨hframes, hrep⟩, hall.nodup_iff.mpr h.nodup, ?_,
    fun b hb ↦ ?_⟩
  · rw [hroot, ptr_plug]
  · rw [hall.mem_iff]
    exact h.nil
  · rw [hall.mem_iff] at hb
    rw [hsame b fun hmem ↦ hb ((perm_addresses_plug ctx tree).mem_iff.mpr hmem), h.outside b hb]

/-- The cell at the root of the tree in the hole. -/
theorem Holds.cell (h : Holds others nil (plug ctx (join s (c, a, k) near far)) t) :
    t.nodes a =
      some (Node.make s c k (parentOf nil ctx) (ptr nil near) (ptr nil far)) :=
  (rep_join.mp (rep_plug.mp h.rep).2).1

/-- The state after a cell has been written. -/
structure Writes (t t' : RbTree) (a : ℕ) (n : Node) : Prop where
  nil : t'.nil = t.nil
  root : t'.root = t.root
  cell : t'.nodes a = some n
  same : ∀ b, b ≠ a → t'.nodes b = t.nodes b

theorem modify_writes {n : Node} (h : t.nodes a = some n) (change : Node → Node) :
    ∃ t', t.modify a change = some t' ∧ Writes t t' a (change n) := by
  refine ⟨{ t with nodes := t.nodes.put a (change n) }, ?_, rfl, rfl, Store.put_self ..,
    fun b hb ↦ Store.put_of_ne _ hb _⟩
  rw [RbTree.modify, h, Option.map_some]

section Fields

variable {parent x y : ℕ}

theorem child_eq {n : Node} (h : t.nodes a = some n) (s : Side) : t.child s a = some (n.child s) := by
  rw [RbTree.child, h, Option.map_some]

theorem parent_eq {n : Node} (h : t.nodes a = some n) : t.parent a = some n.parent := by
  rw [RbTree.parent, h, Option.map_some]

theorem color_eq {n : Node} (h : t.nodes a = some n) : t.color a = some n.color := by
  rw [RbTree.color, h, Option.map_some]

theorem key_eq {n : Node} (h : t.nodes a = some n) : t.key a = some n.key := by
  rw [RbTree.key, h, Option.map_some]

theorem setChild_writes (h : t.nodes a = some (Node.make s c k parent x y)) (b : ℕ) :
    ∃ t', t.setChild s a b = some t' ∧ Writes t t' a (Node.make s c k parent b y) := by
  obtain ⟨t', hset, hwrites⟩ := modify_writes h fun n ↦ n.withChild b s
  exact ⟨t', hset, make_withChild .. ▸ hwrites⟩

theorem setChild_other_writes (h : t.nodes a = some (Node.make s c k parent x y)) (b : ℕ) :
    ∃ t', t.setChild s.other a b = some t' ∧ Writes t t' a (Node.make s c k parent x b) := by
  obtain ⟨t', hset, hwrites⟩ := modify_writes h fun n ↦ n.withChild b s.other
  exact ⟨t', hset, make_withChild_other .. ▸ hwrites⟩

theorem setParent_writes (h : t.nodes a = some (Node.make s c k parent x y)) (p : ℕ) :
    ∃ t', t.setParent a p = some t' ∧ Writes t t' a (Node.make s c k p x y) := by
  obtain ⟨t', hset, hwrites⟩ := modify_writes h fun n ↦ { n with parent := p }
  exact ⟨t', hset, make_withParent .. ▸ hwrites⟩

theorem setColor_writes (h : t.nodes a = some (Node.make s c k parent x y)) (c' : Color) :
    ∃ t', t.setColor a c' = some t' ∧ Writes t t' a (Node.make s c' k parent x y) := by
  obtain ⟨t', hset, hwrites⟩ := modify_writes h fun n ↦ { n with color := c' }
  exact ⟨t', hset, make_withColor .. ▸ hwrites⟩

/-- Painting a node does not move it. -/
theorem setColor_parent {t' : RbTree} {c' : Color} (h : t.setColor a c' = some t') (b : ℕ) :
    t'.parent b = t.parent b := by
  obtain ⟨n, hcell, rfl⟩ := Option.map_eq_some_iff.mp h
  change (t.nodes.put a _ b).map Node.parent = (t.nodes b).map Node.parent
  by_cases hb : b = a
  · rw [hb, Store.put_self, hcell, Option.map_some, Option.map_some]
  · rw [Store.put_of_ne _ hb]

end Fields

/-- Recoloring the root of the tree in the hole. -/
theorem Holds.setColor (h : Holds others nil (plug ctx (join s (c, a, k) near far)) t) (c' : Color) :
    ∃ t', t.setColor a c' = some t' ∧ Holds others nil (plug ctx (join s (c', a, k) near far)) t' := by
  obtain ⟨hframes, hrep⟩ := rep_plug.mp h.rep
  obtain ⟨hcell, hnear, hfar⟩ := rep_join.mp hrep
  have hdistinct := ((perm_addresses_join s (c, a, k) near far).append_right _).nodup_iff.mp
    h.distinct.1
  obtain ⟨t', hset, hwrites⟩ := setColor_writes hcell c'
  refine ⟨t', hset, h.edit hwrites.nil ?_ ?_ ?_ ?_ ?_⟩
  · rw [hwrites.root, h.root, ptr_plug, ptr_join, ptr_join]
  · rw [ptr_join] at hframes ⊢
    exact hframes.frame fun b hb ↦ hwrites.same b (by grind)
  · exact rep_join.mpr ⟨hwrites.cell, hnear.frame fun b hb ↦ hwrites.same b (by grind),
      hfar.frame fun b hb ↦ hwrites.same b (by grind)⟩
  · exact (perm_addresses_join ..).trans (perm_addresses_join s (c, a, k) near far).symm
  · intro b hb
    refine hwrites.same b ?_
    rintro rfl
    exact hb (List.mem_append_left _ (mem_addresses_join.mpr (Or.inl rfl)))

/-! ### Reading the tree -/

/-- The sentinel's cell. -/
theorem Holds.sentinel {p : ℕ} (h : Holds others nil tree t) (hsentinel : Sentinel others nil p) :
    ∃ k, t.nodes nil = some ⟨.black, k, p, nil, nil⟩ := by
  obtain ⟨k, hk⟩ := hsentinel
  exact ⟨k, (h.outside _ h.nil).trans hk⟩

section Root

variable (h : Holds others nil (plug ctx (join s (c, a, k) near far)) t)

include h

theorem Holds.root_color : t.color a = some c := by rw [color_eq h.cell, make_color]

theorem Holds.root_key : t.key a = some k := by rw [key_eq h.cell, make_key]

theorem Holds.root_ne_nil : a ≠ nil := by
  rintro rfl
  exact h.distinct.2 (List.mem_append_left _ (mem_addresses_join.mpr (Or.inl rfl)))

theorem Holds.root_parent : t.parent a = some (parentOf nil ctx) := by
  rw [parent_eq h.cell, make_parent]

theorem Holds.root_near : t.child s a = some (ptr nil near) := by
  rw [child_eq h.cell, make_child]

theorem Holds.root_far : t.child s.other a = some (ptr nil far) := by
  rw [child_eq h.cell, make_child_other]

end Root

/-- The color of a tree is that of its cell, or of the sentinel. -/
theorem Holds.color_ptr {p : ℕ} (h : Holds others nil (plug ctx tree) t)
    (hsentinel : Sentinel others nil p) : t.color (ptr nil tree) = some (rootColor tree) := by
  by_cases htree : tree = .nil
  · obtain ⟨k, hcell⟩ := h.sentinel hsentinel
    rw [htree]
    exact color_eq hcell
  · obtain ⟨⟨c, a, k⟩, near, far, rfl⟩ := exists_join .left htree
    rw [ptr_join, color_eq h.cell, rootColor_join]
    rfl

/-- Painting the tree in the hole black; the sentinel is black already. -/
theorem Holds.setColor_ptr {p : ℕ} (hsentinel : Sentinel others nil p)
    (h : Holds others nil (plug ctx tree) t) : ∃ t', t.setColor (ptr nil tree) .black = some t' ∧
      Holds others nil (plug ctx (paint .black tree)) t' := by
  by_cases htree : tree = .nil
  · obtain ⟨k, hcell⟩ := h.sentinel hsentinel
    refine ⟨t, ?_, htree ▸ h⟩
    rw [htree, ptr_nil, RbTree.setColor, RbTree.modify, hcell, Option.map_some, Store.put_eq_self hcell]
  · obtain ⟨⟨c, a, k⟩, near, far, rfl⟩ := exists_join .left htree
    rw [ptr_join, paint_join]
    exact h.setColor .black

/-- The pointer in the hole does not lead to a frame. -/
theorem Holds.ptr_not_mem (h : Holds others nil (plug ctx tree) t) : ptr nil tree ∉ outer ctx := by
  obtain ⟨hnodup, hnil⟩ := h.distinct
  rcases ptr_mem nil tree with rfl | hmem
  · exact fun houter ↦ hnil (List.mem_append_right _ houter)
  · exact fun houter ↦ (List.nodup_append.mp hnodup).2.2 _ hmem _ houter rfl

/-- The pointer in a hole below a node does not lead to the root. -/
theorem Holds.ptr_ne_root {f : Frame (Color × ℕ × ℤ)} (h : Holds others nil (plug (f :: ctx) tree) t) :
    ptr nil tree ≠ t.root := by
  rw [h.root, ptr_plug]
  intro heq
  exact h.ptr_not_mem (heq ▸ rootOf_mem f ctx _)

/-- The two children of a node are apart, if one is there. -/
theorem Holds.ptr_ne (h : Holds others nil (plug ctx (join s (c, a, k) near far)) t)
    (hnear : near ≠ .nil) : ptr nil near ≠ ptr nil far := by
  have hperm := (perm_addresses_join s (c, a, k) near far).append_right (outer ctx)
  have hdistinct := h.distinct
  rw [hperm.nodup_iff, hperm.mem_iff] at hdistinct
  have hmem := (ptr_mem nil near).resolve_left hnear
  rcases ptr_mem nil far with rfl | hmem'
  · intro heq
    rw [heq] at hmem
    exact hdistinct.2 (List.mem_append_left _ (List.mem_cons_of_mem _
      (List.mem_append_left _ hmem)))
  · have hnodup := (List.nodup_cons.mp (List.nodup_append.mp hdistinct.1).1).2
    exact (List.nodup_append.mp hnodup).2.2 _ hmem _ hmem'

/-- The tree in the hole with the node above it. -/
theorem Holds.up (h : Holds others nil (plug (⟨s, (c, a, k), far⟩ :: ctx) near) t) :
    Holds others nil (plug ctx (join s (c, a, k) near far)) t := h

/-- The near child of the tree in the hole. -/
theorem Holds.down (h : Holds others nil (plug ctx (join s (c, a, k) near far)) t) :
    Holds others nil (plug (⟨s, (c, a, k), far⟩ :: ctx) near) t := h

/-- A node with the frame above it, seen from the other side. -/
theorem Holds.swap (h : Holds others nil (plug (⟨s, (c, a, k), far⟩ :: ctx) near) t) :
    Holds others nil (plug (⟨s.other, (c, a, k), near⟩ :: ctx) far) t := by
  rw [plug_cons, Frame.fill, join_other]
  exact h

theorem Holds.unswap (h : Holds others nil (plug (⟨s.other, (c, a, k), far⟩ :: ctx) near) t) :
    Holds others nil (plug (⟨s, (c, a, k), near⟩ :: ctx) far) t := by
  rw [plug_cons, Frame.fill, join_other] at h
  exact h

/-! ### Links to parents -/

/-- A tree that is given another parent, unless it is empty. -/
theorem Rep.adopt {parent : ℕ} (h : Rep t.nodes nil parent tree) (hnodup : (addresses tree).Nodup)
    (htree : tree ≠ .nil) (p : ℕ) : ∃ t', t.setParent (ptr nil tree) p = some t' ∧
      t'.nil = t.nil ∧ t'.root = t.root ∧ Rep t'.nodes nil p tree ∧
        ∀ b ∉ addresses tree, t'.nodes b = t.nodes b := by
  obtain ⟨⟨c, a, k⟩, near, far, rfl⟩ := exists_join .left htree
  obtain ⟨hcell, hnear, hfar⟩ := rep_join.mp h
  have hdistinct := (perm_addresses_join .left (c, a, k) near far).nodup_iff.mp hnodup
  rw [ptr_join]
  obtain ⟨t', hset, hwrites⟩ := setParent_writes hcell p
  refine ⟨t', hset, hwrites.nil, hwrites.root, rep_join.mpr ⟨hwrites.cell,
    hnear.frame fun b hb ↦ hwrites.same b (by grind),
    hfar.frame fun b hb ↦ hwrites.same b (by grind)⟩, fun b hb ↦ hwrites.same b ?_⟩
  rintro rfl
  exact hb (mem_addresses_join.mpr (Or.inl rfl))

/-- The inner tree of a rotation gets its new parent. -/
theorem Rep.adopt_inner {parent : ℕ} (h : Rep t.nodes nil parent tree) (htnil : t.nil = nil)
    (hnodup : (addresses tree).Nodup) (hnil : nil ∉ addresses tree) (p : ℕ) :
    ∃ t', t.setParentUnlessNil (ptr nil tree) p = some t' ∧
      t'.nil = t.nil ∧ t'.root = t.root ∧ Rep t'.nodes nil p tree ∧
        ∀ b ∉ addresses tree, t'.nodes b = t.nodes b := by
  by_cases htree : tree = .nil
  · subst htree
    exact ⟨t, if_pos htnil.symm, rfl, rfl, trivial, fun _ _ ↦ rfl⟩
  · have hne : ptr nil tree ≠ t.nil := by
      intro heq
      exact hnil (htnil ▸ heq ▸ (ptr_mem nil tree).resolve_left htree)
    rw [RbTree.setParentUnlessNil, if_neg hne]
    exact h.adopt hnodup htree p

/-- Writing the pointer in the place of the hole. -/
theorem Frames.setHole {f : Frame (Color × ℕ × ℤ)} {hole : ℕ}
    (h : Frames t.nodes nil hole (f :: ctx)) (houter : (outer (f :: ctx)).Nodup) (v : ℕ) :
    ∃ t', t.setChild f.side f.value.2.1 v = some t' ∧ t'.nil = t.nil ∧ t'.root = t.root ∧
      Frames t'.nodes nil v (f :: ctx) ∧ ∀ b ∉ outer (f :: ctx), t'.nodes b = t.nodes b := by
  obtain ⟨s, ⟨c, a, k⟩, sibling⟩ := f
  obtain ⟨hcell, hsibling, hrest⟩ := h
  obtain ⟨t', hset, hwrites⟩ := setChild_writes hcell v
  rw [outer, List.nodup_cons, List.mem_append, not_or] at houter
  refine ⟨t', hset, hwrites.nil, hwrites.root, ⟨hwrites.cell,
    hsibling.frame fun b hb ↦ hwrites.same b (ne_of_mem_of_not_mem hb houter.1.1),
    hrest.frame fun b hb ↦ hwrites.same b (ne_of_mem_of_not_mem hb houter.1.2)⟩,
    fun b hb ↦ hwrites.same b ?_⟩
  rintro rfl
  exact hb List.mem_cons_self

/-- Linking another tree to the parent of the tree in the hole. -/
theorem Frames.relink {u : ℕ} (h : Frames t.nodes nil u ctx) (htnil : t.nil = nil)
    (hroot : t.root = rootOf ctx u) (houter : (outer ctx).Nodup) (hnil : nil ∉ outer ctx)
    (hunil : u ≠ nil) (hu : u ∉ outer ctx) (first : Side) (v : ℕ) :
    ∃ t', t.relink first (parentOf nil ctx) u v = some t' ∧ t'.nil = t.nil ∧
      t'.root = rootOf ctx v ∧ Frames t'.nodes nil v ctx ∧
        ∀ b ∉ outer ctx, t'.nodes b = t.nodes b := by
  cases ctx with
  | nil =>
    exact ⟨{ t with root := v }, if_pos htnil.symm, rfl, rfl, trivial, fun _ _ ↦ rfl⟩
  | cons f ctx =>
    obtain ⟨t', hset, hnil', hroot', hframes, hsame⟩ := h.setHole houter v
    obtain ⟨s, ⟨c, a, k⟩, sibling⟩ := f
    have hcell := h.1
    have hne : a ≠ t.nil := by
      rintro rfl
      exact hnil (htnil ▸ List.mem_cons_self)
    have hsibling : ptr nil sibling ≠ u := by
      rcases ptr_mem nil sibling with rfl | hmem
      · exact hunil.symm
      · rintro rfl
        exact hu (List.mem_cons_of_mem _ (List.mem_append_left _ hmem))
    refine ⟨t', ?_, hnil', hroot'.trans hroot, hframes, hsame⟩
    rw [parentOf_cons, RbTree.relink, if_neg hne]
    rcases Side.eq_or_eq_other s first with rfl | rfl
    · simp only [child_eq hcell, make_child, Option.bind_eq_bind, Option.bind_some, if_true, hset]
    · simp only [child_eq hcell, make_child_other, Option.bind_eq_bind, Option.bind_some,
        if_neg hsibling, Side.other_other, hset]

/-! ### Rotations -/

/-- The addresses around two linked nodes are apart. -/
theorem nodup_parts {a b : ℕ} {A B C o : List ℕ}
    (h : (a :: (A ++ b :: (B ++ C)) ++ o).Nodup) :
    b ≠ a ∧ (a ∉ A ∧ a ∉ B ∧ a ∉ C ∧ a ∉ o) ∧ (b ∉ A ∧ b ∉ B ∧ b ∉ C ∧ b ∉ o) ∧
      B.Nodup ∧ o.Nodup ∧ (∀ x ∈ A, x ∉ B ∧ x ∉ o) ∧ (∀ x ∈ B, x ∉ o) ∧ ∀ x ∈ C, x ∉ B ∧ x ∉ o := by
  grind

/-- A rotation keeps the addresses. -/
theorem perm_addresses_rotate (s : Side) (v w : Color × ℕ × ℤ) (A B C : Tree) :
    (addresses (join s w (join s v A B) C)).Perm (addresses (join s v A (join s w B C))) := by
  rw [addresses, addresses, inorder_rotate]

/-- A rotation at the root of the tree in the hole. -/
theorem Holds.rotate {A B C : Tree} {d : Color} {b : ℕ} {l : ℤ}
    (h : Holds others nil (plug ctx (join s (c, a, k) A (join s (d, b, l) B C))) t) :
    ∃ t', t.rotate s a = some t' ∧ Holds others nil (plug ctx (join s (d, b, l) (join s (c, a, k) A B) C)) t' := by
  obtain ⟨hframes, hrep⟩ := rep_plug.mp h.rep
  obtain ⟨hcellA, hA, hrepB⟩ := rep_join.mp hrep
  obtain ⟨hcellB, hB, hC⟩ := rep_join.mp hrepB
  have hperm := ((perm_addresses_join s (c, a, k) A (join s (d, b, l) B C)).trans
    (((perm_addresses_join s (d, b, l) B C).append_left _).cons _)).append_right (outer ctx)
  have hdistinct := h.distinct
  rw [hperm.nodup_iff, hperm.mem_iff] at hdistinct
  obtain ⟨hba, ⟨haA, haB, haC, hao⟩, ⟨hbA, hbB, hbC, hbo⟩, hnodupB, hnodupo, hapartA, hapartB,
    hapartC⟩ := nodup_parts hdistinct.1
  have hnil := hdistinct.2
  simp only [List.cons_append, List.append_assoc, List.mem_cons, List.mem_append, not_or] at hnil
  obtain ⟨hnila, -, hnilb, hnilB, -, hnilo⟩ := hnil
  simp only [ptr_join] at hframes hcellA
  have hroot : t.root = rootOf ctx a := by rw [h.root, ptr_plug, ptr_join]
  -- the inner tree goes below `a`
  obtain ⟨t₁, hset₁, hwrites₁⟩ := setChild_other_writes hcellA (ptr nil B)
  have hcellB₁ := (hwrites₁.same b hba).trans hcellB
  have hB₁ : Rep t₁.nodes nil b B :=
    hB.frame fun x hx ↦ hwrites₁.same x (ne_of_mem_of_not_mem hx haB)
  obtain ⟨t₂, hset₂, hnil₂, hroot₂, hB₂, hsame₂⟩ := hB₁.adopt_inner (hwrites₁.nil.trans h.nil_eq) hnodupB hnilB a
  have hcellA₂ := (hsame₂ a haB).trans hwrites₁.cell
  -- `b` takes the place of `a` below the parent
  obtain ⟨t₃, hset₃, hwrites₃⟩ :=
    setParent_writes ((hsame₂ b hbB).trans hcellB₁) (parentOf nil ctx)
  have hcellA₃ := (hwrites₃.same a hba.symm).trans hcellA₂
  have hnil₁ : t₁.nil = nil := hwrites₁.nil.trans h.nil_eq
  have hnil₃ : t₃.nil = nil := hwrites₃.nil.trans (hnil₂.trans hnil₁)
  have hframes₃ : Frames t₃.nodes nil a ctx := by
    refine hframes.frame fun x hx ↦ ?_
    rw [hwrites₃.same x (ne_of_mem_of_not_mem hx hbo), hsame₂ x fun hxB ↦ hapartB x hxB hx,
      hwrites₁.same x (ne_of_mem_of_not_mem hx hao)]
  have hroot₃ : t₃.root = rootOf ctx a := by rw [hwrites₃.root, hroot₂, hwrites₁.root, hroot]
  obtain ⟨t₄, hset₄, hnil₄, hroot₄, hframes₄, hsame₄⟩ := hframes₃.relink hnil₃ hroot₃ hnodupo hnilo
    (Ne.symm hnila) hao s b
  -- `a` goes below `b`
  obtain ⟨t₅, hset₅, hwrites₅⟩ := setChild_writes ((hsame₄ b hbo).trans hwrites₃.cell) a
  have hcellA₅ := (hwrites₅.same a hba.symm).trans ((hsame₄ a hao).trans hcellA₃)
  obtain ⟨t₆, hset₆, hwrites₆⟩ := setParent_writes hcellA₅ b
  have hnil₆ : t₆.nil = t.nil :=
    hwrites₆.nil.trans (hwrites₅.nil.trans (hnil₄.trans (hnil₃.trans h.nil_eq.symm)))
  have hlate : ∀ x, x ≠ a → x ≠ b → x ∉ outer ctx → t₆.nodes x = t₂.nodes x := by
    intro x hxa hxb hx
    rw [hwrites₆.same x hxa, hwrites₅.same x hxb, hsame₄ x hx, hwrites₃.same x hxb]
  have hother : ∀ x, x ≠ a → x ≠ b → x ∉ outer ctx → x ∉ addresses B →
      t₆.nodes x = t.nodes x := by
    intro x hxa hxb hx hxB
    rw [hlate x hxa hxb hx, hsame₂ x hxB, hwrites₁.same x hxa]
  refine ⟨t₆, ?_, h.edit hnil₆ ?_ ?_ ?_ ?_ ?_⟩
  · simp only [RbTree.rotate, child_eq hcellA, make_child_other, child_eq hcellB, make_child,
      Option.bind_eq_bind, Option.bind_some, h.nil_eq, if_neg (Ne.symm hnilb), hset₁, child_eq hcellB₁,
      hset₂, parent_eq hcellA₂, make_parent, hset₃, hset₄, hset₅, hset₆]
  · rw [hwrites₆.root, hwrites₅.root, hroot₄, ptr_join]
  · rw [ptr_join]
    refine hframes₄.frame fun x hx ↦ ?_
    rw [hwrites₆.same x (ne_of_mem_of_not_mem hx hao),
      hwrites₅.same x (ne_of_mem_of_not_mem hx hbo)]
  · refine rep_join.mpr ⟨?_, rep_join.mpr ⟨hwrites₆.cell, ?_, ?_⟩, ?_⟩
    · rw [hwrites₆.same b hba, hwrites₅.cell, ptr_join]
    · exact hA.frame fun x hx ↦ hother x (ne_of_mem_of_not_mem hx haA)
        (ne_of_mem_of_not_mem hx hbA) (hapartA x hx).2 (hapartA x hx).1
    · exact hB₂.frame fun x hx ↦ hlate x (ne_of_mem_of_not_mem hx haB)
        (ne_of_mem_of_not_mem hx hbB) (hapartB x hx)
    · exact hC.frame fun x hx ↦ hother x (ne_of_mem_of_not_mem hx haC)
        (ne_of_mem_of_not_mem hx hbC) (hapartC x hx).2 (hapartC x hx).1
  · exact perm_addresses_rotate ..
  · intro x hx
    rw [hperm.mem_iff] at hx
    simp only [List.cons_append, List.append_assoc, List.mem_cons, List.mem_append, not_or] at hx
    exact hother x hx.1 hx.2.2.1 hx.2.2.2.2.2 hx.2.2.2.1

end Jungle.RedBlack
