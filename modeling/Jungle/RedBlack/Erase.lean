import Jungle.RedBlack.DeleteLoop
import Jungle.RedBlack.Insert

/-!
# Deletion

`rbtree_erase` takes a node out of the tree, or puts its successor in its place (`replaceNode`), and
then balances the tree with `rbtree_delete_fixup`. The nodes that stay keep their addresses and keys
(`rbtreeErase_outcome`).
-/

set_option autoImplicit false
set_option relaxedAutoImplicit false

namespace Jungle.RedBlack

open BinaryTree Jungle.Lib

variable {t : RbTree} {ctx path : Path} {c cy : Color} {nil parent p u y z h : ℕ} {k ky : ℤ}
  {L R V X tree : Tree}

/-! ### Moving a tree -/

/-- The sentinel is there, with the given parent if the tree is empty. -/
def SentinelBelow (nodes : Store Node) (nil p : ℕ) (tree : Tree) : Prop :=
  ∃ parent, Sentinel nodes nil parent ∧ (tree = .nil → parent = p)

/-- The state after the parent of a tree, or of the sentinel in its place, has been set. -/
structure Adopts (t t' : RbTree) (nil p : ℕ) (tree : Tree) : Prop where
  nil_eq : t'.nil = t.nil
  root : t'.root = t.root
  rep : Rep t'.nodes nil p tree
  sentinel : SentinelBelow t'.nodes nil p tree
  same : ∀ b ∉ addresses tree, b ≠ ptr nil tree → t'.nodes b = t.nodes b

/-- Setting the parent of a tree, or of the sentinel in its place. -/
theorem Rep.setParent (hrep : Rep t.nodes nil u tree) (hnodup : (addresses tree).Nodup)
    (hnil : nil ∉ addresses tree) (hsentinel : Sentinel t.nodes nil parent) (p : ℕ) :
    ∃ t', t.setParent (ptr nil tree) p = some t' ∧ Adopts t t' nil p tree := by
  obtain ⟨k, hcell⟩ := hsentinel
  by_cases htree : tree = .nil
  · subst htree
    have hmake : t.nodes nil = some (Node.make .left .black k parent nil nil) := hcell
    obtain ⟨t', hset, hwrites⟩ := setParent_writes hmake p
    exact ⟨t', hset, hwrites.nil, hwrites.root, trivial, ⟨p, ⟨k, hwrites.cell⟩, fun _ ↦ rfl⟩,
      fun b _ hb ↦ hwrites.same b hb⟩
  · obtain ⟨t', hset, hnil', hroot, hrep', hsame⟩ := hrep.adopt hnodup htree p
    exact ⟨t', hset, hnil', hroot, hrep', ⟨parent, ⟨k, (hsame nil hnil).trans hcell⟩,
      fun h ↦ absurd h htree⟩, fun b hb _ ↦ hsame b hb⟩

/-- The cells of a tree in a hole and of its frames. -/
theorem holds_plug (hnil_eq : t.nil = nil) (hroot : t.root = rootOf ctx (ptr nil V))
    (hframes : Frames t.nodes nil (ptr nil V) ctx) (hrep : Rep t.nodes nil (parentOf nil ctx) V)
    (hnodup : (addresses V ++ outer ctx).Nodup) (hnil : nil ∉ addresses V ++ outer ctx) :
    Holds t.nodes nil (plug ctx V) t where
  nil_eq := hnil_eq
  root := hroot.trans (ptr_plug ..).symm
  rep := rep_plug.mpr ⟨hframes, hrep⟩
  nodup := (perm_addresses_plug ctx V).nodup_iff.mpr hnodup
  nil := fun hmem ↦ hnil ((perm_addresses_plug ctx V).mem_iff.mp hmem)
  outside := fun _ _ ↦ rfl

/-- A node in a hole and a tree that can take its place. -/
structure Replaceable (t : RbTree) (nil u : ℕ) (ctx : Path) (V : Tree) : Prop where
  nil_eq : t.nil = nil
  root : t.root = rootOf ctx u
  frames : Frames t.nodes nil u ctx
  parent : t.parent u = some (parentOf nil ctx)
  rep : ∃ p, Rep t.nodes nil p V
  sentinel : ∃ p, Sentinel t.nodes nil p
  nodup : (u :: addresses V ++ outer ctx).Nodup
  apart : nil ∉ u :: addresses V ++ outer ctx

/-- `rbtree_transplant` puts the tree in the place of the node. -/
theorem Replaceable.transplant (hu : Replaceable t nil u ctx V) :
    ∃ t', t.rbtreeTransplant u (ptr nil V) = some t' ∧ Holds t'.nodes nil (plug ctx V) t' ∧
      SentinelBelow t'.nodes nil (parentOf nil ctx) V ∧
      ∀ b ∉ addresses V ++ outer ctx, b ≠ ptr nil V → t'.nodes b = t.nodes b := by
  have hnodup := hu.nodup
  have hapart := hu.apart
  rw [List.cons_append, List.nodup_cons, List.mem_append, not_or] at hnodup
  rw [List.cons_append, List.mem_cons, List.mem_append, not_or, not_or] at hapart
  obtain ⟨⟨huV, huOuter⟩, hrest⟩ := hnodup
  obtain ⟨hunil, hnilV, hnilOuter⟩ := hapart
  obtain ⟨hnodupV, hnodupOuter, hdisjoint⟩ := List.nodup_append.mp hrest
  obtain ⟨p, hrep⟩ := hu.rep
  obtain ⟨q, k, hsentinel⟩ := hu.sentinel
  obtain ⟨t₁, hrelink, hnil₁, hroot₁, hframes₁, hsame₁⟩ := hu.frames.relink hu.nil_eq hu.root
    hnodupOuter hnilOuter (Ne.symm hunil) huOuter .left (ptr nil V)
  have hrep₁ : Rep t₁.nodes nil p V :=
    hrep.frame fun b hb ↦ hsame₁ b fun hb' ↦ hdisjoint b hb b hb' rfl
  have hsentinel₁ : Sentinel t₁.nodes nil q := ⟨k, (hsame₁ nil hnilOuter).trans hsentinel⟩
  have hparent₁ : t₁.parent u = some (parentOf nil ctx) := by
    rw [RbTree.parent, hsame₁ u huOuter]
    exact hu.parent
  obtain ⟨t', hset, hadopts⟩ :=
    hrep₁.setParent hnodupV hnilV hsentinel₁ (parentOf nil ctx)
  have hframes' : Frames t'.nodes nil (ptr nil V) ctx := by
    refine hframes₁.frame fun b hb ↦ hadopts.same b (fun hb' ↦ hdisjoint b hb' b hb rfl) ?_
    rintro rfl
    rcases ptr_mem nil V with rfl | hmem
    · exact hnilOuter hb
    · exact hdisjoint _ hmem _ hb rfl
  refine ⟨t', ?_, holds_plug (hadopts.nil_eq.trans (hnil₁.trans hu.nil_eq))
    (hadopts.root.trans hroot₁) hframes' hadopts.rep hrest ?_, hadopts.sentinel, fun b hb hbnil ↦ ?_⟩
  · simp only [RbTree.rbtreeTransplant, hu.parent, hrelink, hparent₁, hset, Option.bind_eq_bind,
      Option.bind_some]
  · rw [List.mem_append, not_or]
    exact ⟨hnilV, hnilOuter⟩
  · rw [List.mem_append, not_or] at hb
    rw [hadopts.same b hb.1 hbnil, hsame₁ b hb.2]

/-- The cells outside the tree need not be named. -/
theorem Holds.self {others : Store Node} (hholds : Holds others nil tree t) :
    Holds t.nodes nil tree t :=
  ⟨hholds.nil_eq, hholds.root, hholds.rep, hholds.nodup, hholds.nil, fun _ _ ↦ rfl⟩

/-- A node can be replaced by one of its children. -/
theorem Holds.replaceable {s : Side} {near far : Tree} {others : Store Node}
    (hholds : Holds others nil (plug ctx (join s (c, z, k) near far)) t)
    (hsentinel : Sentinel others nil p) : Replaceable t nil z ctx near := by
  obtain ⟨hframes, hrep⟩ := rep_plug.mp hholds.rep
  have hdistinct := hholds.distinct
  have hperm := (perm_addresses_join s (c, z, k) near far).append_right (outer ctx)
  rw [hperm.nodup_iff, hperm.mem_iff] at hdistinct
  rw [ptr_join] at hframes
  refine ⟨hholds.nil_eq, ?_, hframes, hholds.root_parent,
    ⟨z, (rep_join.mp hrep).2.1⟩, ⟨p, hholds.sentinel hsentinel⟩, ?_, ?_⟩
  · rw [hholds.root, ptr_plug, ptr_join]
  · have hnodup := hdistinct.1
    grind
  · have hnil := hdistinct.2
    grind

/-- Setting the parent of the tree in the hole to what it is. -/
theorem Holds.setParent_hole (hholds : Holds t.nodes nil (plug ctx X) t)
    (hsentinel : Sentinel t.nodes nil p) : ∃ t', t.setParent (ptr nil X) (parentOf nil ctx) = some t' ∧
      Holds t'.nodes nil (plug ctx X) t' ∧ SentinelBelow t'.nodes nil (parentOf nil ctx) X := by
  obtain ⟨hframes, hrep⟩ := rep_plug.mp hholds.rep
  obtain ⟨hnodup, hnil⟩ := hholds.distinct
  have hnodupX := (List.nodup_append.mp hnodup).1
  have hnilX : nil ∉ addresses X := fun hmem ↦ hnil (List.mem_append_left _ hmem)
  obtain ⟨t', hset, hadopts⟩ := hrep.setParent hnodupX hnilX hsentinel (parentOf nil ctx)
  refine ⟨t', hset, holds_plug (hadopts.nil_eq.trans hholds.nil_eq) ?_ ?_ hadopts.rep hnodup hnil,
    hadopts.sentinel⟩
  · rw [hadopts.root, hholds.root, ptr_plug]
  · refine hframes.frame fun b hb ↦ hadopts.same b ?_ (ne_of_mem_of_not_mem hb hholds.ptr_not_mem)
    exact fun hmem ↦ (List.nodup_append.mp hnodup).2.2 b hmem b hb rfl

/-! ### Putting the successor in the place of a node -/

/-- Hanging a tree below a node. -/
theorem Rep.attach {s : Side} {far : Tree} {x : ℕ} (hrep : Rep t.nodes nil u tree)
    (hcell : t.nodes y = some (Node.make s c k p x (ptr nil far))) (hfar : Rep t.nodes nil y far)
    (htree : tree ≠ .nil) (hnodup : (y :: addresses tree ++ addresses far).Nodup) :
    ∃ t₁ t', t.setChild s y (ptr nil tree) = some t₁ ∧ t₁.child s y = some (ptr nil tree) ∧
      t₁.setParent (ptr nil tree) y = some t' ∧ t'.nil = t.nil ∧ t'.root = t.root ∧
      Rep t'.nodes nil p (join s (c, y, k) tree far) ∧
      ∀ b ∉ y :: addresses tree, t'.nodes b = t.nodes b := by
  rw [List.cons_append, List.nodup_cons, List.mem_append, not_or] at hnodup
  obtain ⟨⟨hytree, hyfar⟩, hrest⟩ := hnodup
  obtain ⟨hnodup, -, hdisjoint⟩ := List.nodup_append.mp hrest
  obtain ⟨t₁, hset, hwrites⟩ := setChild_writes hcell (ptr nil tree)
  have hrep₁ : Rep t₁.nodes nil u tree :=
    hrep.frame fun b hb ↦ hwrites.same b (ne_of_mem_of_not_mem hb hytree)
  have hfar₁ : Rep t₁.nodes nil y far :=
    hfar.frame fun b hb ↦ hwrites.same b (ne_of_mem_of_not_mem hb hyfar)
  have hchild : t₁.child s y = some (ptr nil tree) := by rw [child_eq hwrites.cell, make_child]
  obtain ⟨t', hset', hnil, hroot, hrep', hsame⟩ := hrep₁.adopt hnodup htree y
  refine ⟨t₁, t', hset, hchild, hset', hnil.trans hwrites.nil, hroot.trans hwrites.root,
    rep_join.mpr ⟨(hsame y hytree).trans hwrites.cell, hrep', hfar₁.frame fun b hb ↦ hsame b ?_⟩,
    fun b hb ↦ ?_⟩
  · exact fun hmem ↦ hdisjoint b hmem b hb rfl
  · rw [List.mem_cons, not_or] at hb
    rw [hsame b hb.2, hwrites.same b hb.1]

/-- A node with a left tree and another tree that can take its place. -/
structure Extracted (t : RbTree) (nil z : ℕ) (c : Color) (ctx : Path) (L V : Tree) : Prop where
  replaceable : Replaceable t nil z ctx V
  left : Rep t.nodes nil z L
  color : t.color z = some c
  child : t.child .left z = some (ptr nil L)
  nodup : (addresses L).Nodup
  apart : ∀ a ∈ addresses L, a ≠ nil ∧ a ∉ z :: addresses V ++ outer ctx

/-- The right tree of a node can take its place. -/
theorem Holds.extracted (hholds : Holds t.nodes nil (plug ctx (join .right (c, z, k) V L)) t)
    (hsentinel : Sentinel t.nodes nil p) : Extracted t nil z c ctx L V := by
  have hdistinct := hholds.distinct
  have hperm := (perm_addresses_join .right (c, z, k) V L).append_right (outer ctx)
  rw [hperm.nodup_iff, hperm.mem_iff] at hdistinct
  obtain ⟨hnodup, hnil⟩ := hdistinct
  refine ⟨hholds.replaceable hsentinel, (rep_join.mp (rep_plug.mp hholds.rep).2).2.2,
    hholds.root_color, hholds.root_far, by grind, fun a ha ↦ ⟨?_, by grind⟩⟩
  rintro rfl
  exact hnil (by simp [ha])

theorem outer_append (inner ctx : Path) : outer (inner ++ ctx) = outer inner ++ outer ctx := by
  induction inner with
  | nil => rfl
  | cons f inner ih => simp only [List.cons_append, outer, ih, List.append_assoc]

/-- The successor is the root of the right tree. -/
theorem detachSuccessor_root
    (hholds : Holds t.nodes nil
      (plug (⟨.right, (c, z, k), L⟩ :: ctx) (join .left (cy, y, ky) .nil X)) t)
    (hsentinel : Sentinel t.nodes nil p) :
    ∃ t', t.detachSuccessor z y (ptr nil X) = some t' ∧
      Extracted t' nil z c ctx L (join .left (cy, y, ky) .nil X) ∧
      SentinelBelow t'.nodes nil y X := by
  have hright : t.child .right z = some y := by
    rw [hholds.up.root_near, ptr_join]
  obtain ⟨t', hset, hholds', hbelow⟩ := (hholds.down.swap).self.setParent_hole hsentinel
  obtain ⟨q, hsentinel', hq⟩ := hbelow
  refine ⟨t', ?_, Holds.extracted hholds' hsentinel', ⟨q, hsentinel', hq⟩⟩
  simp only [RbTree.detachSuccessor, hright, Option.bind_eq_bind, Option.bind_some, if_true]
  exact hset

/-- The addresses around a node whose right tree gets another root. -/
theorem nodup_detached {x : ℕ} {A B o : List ℕ} (h : (z :: (A ++ B) ++ o).Nodup)
    (hy : y ∉ z :: (A ++ B) ++ o) (hx : x ∉ z :: (A ++ B) ++ o) (hyx : y ≠ x) :
    (z :: y :: A ++ o).Nodup ∧ B.Nodup ∧ (∀ a ∈ B, a ≠ x ∧ a ∉ z :: y :: A ++ o) ∧
      (∀ b ∈ o, b ∉ y :: A) ∧ (∀ b ∈ B, b ∉ y :: A) ∧ z ∉ y :: A ∧ x ∉ z :: y :: A ++ o ∧
        (y :: A).Nodup := by
  grind

/-- The successor is further down. -/
theorem detachSuccessor_below {f : Frame (Color × ℕ × ℤ)}
    (hholds : Holds t.nodes nil
      (plug (f :: path ++ ⟨.right, (c, z, k), L⟩ :: ctx) (join .left (cy, y, ky) .nil X)) t)
    (hsentinel : Sentinel t.nodes nil p) :
    ∃ t', t.detachSuccessor z y (ptr nil X) = some t' ∧
      Extracted t' nil z c ctx L (join .left (cy, y, ky) .nil (plug (f :: path) X)) ∧
      SentinelBelow t'.nodes nil f.value.2.1 X := by
  have hsplit : ∀ V : Tree, plug (f :: path ++ ⟨.right, (c, z, k), L⟩ :: ctx) V =
      plug ctx (join .right (c, z, k) (plug (f :: path) V) L) := plug_append _ _
  have hreplaceable : Replaceable t nil y (f :: path ++ ⟨.right, (c, z, k), L⟩ :: ctx) X :=
    Holds.replaceable (s := .right) hholds hsentinel
  obtain ⟨t₁, htransplant, hholds₁, ⟨q, hsentinel₁, hq⟩, hsame₁⟩ := hreplaceable.transplant
  have hcell : t.nodes y = some (Node.make .right cy ky f.value.2.1 (ptr nil X) (ptr nil .nil)) :=
    hholds.cell
  have hnodup := hreplaceable.nodup
  have hapart := hreplaceable.apart
  rw [List.cons_append, List.nodup_cons] at hnodup
  have hyptr : y ≠ ptr nil X := by
    rcases ptr_mem nil X with rfl | hmem
    · exact hholds.root_ne_nil
    · exact (ne_of_mem_of_not_mem hmem fun hb ↦ hnodup.1 (List.mem_append_left _ hb)).symm
  have hcell₁ : t₁.nodes y = some (Node.make .right cy ky f.value.2.1 (ptr nil X) (ptr nil .nil)) :=
    (hsame₁ y hnodup.1 hyptr).trans hcell
  have hne : y ≠ ptr nil (plug (f :: path) (join .left (cy, y, ky) .nil X)) := by
    rw [ptr_plug, ptr_join]
    intro heq
    have hmem := rootOf_mem f path y
    rw [← heq] at hmem
    refine hholds.ptr_not_mem ?_
    rw [ptr_join, outer_append]
    exact List.mem_append_left _ hmem
  have hperm := perm_addresses_plug (f :: path) X
  rw [hsplit] at hholds hholds₁
  obtain ⟨hframes₁, hrepZ⟩ := rep_plug.mp hholds₁.rep
  obtain ⟨-, hrep₁, hL₁⟩ := rep_join.mp hrepZ
  rw [ptr_join] at hframes₁
  obtain ⟨hdistinct, hnil⟩ := hholds₁.distinct
  have hpermR := (perm_addresses_join .right (c, z, k) (plug (f :: path) X) L).append_right (outer ctx)
  rw [hpermR.nodup_iff] at hdistinct
  rw [hpermR.mem_iff] at hnil
  have hy : y ∉ z :: (addresses (plug (f :: path) X) ++ addresses L) ++ outer ctx := by
    intro hb
    have hmem := (perm_addresses_plug ctx _).mem_iff.mpr (hpermR.mem_iff.mpr hb)
    rw [← hsplit] at hmem
    exact hnodup.1 ((perm_addresses_plug _ X).mem_iff.mp hmem)
  have hynil : y ≠ nil := by
    rintro rfl
    exact hapart List.mem_cons_self
  obtain ⟨hnodupV, hnodupL, happartL, houter, hleft, hz, hnilV, hnodupR⟩ :=
    nodup_detached hdistinct hy hnil hynil
  have hnodupR : (y :: addresses (plug (f :: path) X) ++ addresses (BinaryTree.nil : Tree)).Nodup := by
    rwa [addresses_nil, List.append_nil]
  obtain ⟨t₂, t₃, hset₂, hchild₂, hset₃, hnil₃, hroot₃, hrep₃, hsame₃⟩ :=
    hrep₁.attach hcell₁ trivial (plug_ne_nil f path X) hnodupR
  have hsameZ : t₃.nodes z = t₁.nodes z := hsame₃ z hz
  have hsentinel₃ : Sentinel t₃.nodes nil q := by
    obtain ⟨l, hl⟩ := hsentinel₁
    exact ⟨l, (hsame₃ nil fun hb ↦ hnilV (by simp_all)).trans hl⟩
  have hpermV := ((perm_addresses_join .left (cy, y, ky) .nil (plug (f :: path) X)).cons z).append_right
    (outer ctx)
  refine ⟨t₃, ?_, ⟨⟨hnil₃.trans hholds₁.nil_eq, ?_, hframes₁.frame fun b hb ↦ hsame₃ b (houter b hb),
    ?_, ⟨_, hrep₃⟩, ⟨q, hsentinel₃⟩, hpermV.nodup_iff.mpr hnodupV, fun hb ↦ hnilV (hpermV.mem_iff.mp hb)⟩,
    hL₁.frame fun b hb ↦ hsame₃ b (hleft b hb), ?_, ?_, hnodupL, fun a ha ↦ ⟨(happartL a ha).1,
      fun hb ↦ (happartL a ha).2 (hpermV.mem_iff.mp hb)⟩⟩, ⟨q, hsentinel₃, hq⟩⟩
  · have hchild : t.child .right y = some (ptr nil X) := by rw [child_eq hcell, make_child]
    have hchild₁ : t₁.child .right z = some (ptr nil (plug (f :: path) X)) := hholds₁.root_near
    simp only [RbTree.detachSuccessor, hholds.root_near, if_neg hne, hchild, htransplant, hchild₁,
      hset₂, hchild₂, hset₃, Option.bind_eq_bind, Option.bind_some]
  · rw [hroot₃, hholds₁.root, ptr_plug, ptr_join]
  · rw [RbTree.parent, hsameZ]
    exact hholds₁.root_parent
  · rw [RbTree.color, hsameZ]
    exact hholds₁.root_color
  · rw [RbTree.child, hsameZ]
    exact hholds₁.root_far

/-- The successor takes the place of the node. -/
theorem Extracted.takePlace {R : Tree} {q : ℕ} (hL : L ≠ .nil)
    (hz : Extracted t nil z c ctx L (join .left (cy, y, ky) .nil R))
    (hsentinel : Sentinel t.nodes nil q) :
    ∃ t', t.takePlace z y = some t' ∧
      Holds t'.nodes nil (plug ctx (join .left (c, y, ky) L R)) t' ∧
      Sentinel t'.nodes nil q ∧ t'.nodes z ≠ none := by
  obtain ⟨t₁, htransplant, hholds₁, -, hsame₁⟩ := hz.replaceable.transplant
  rw [ptr_join] at htransplant hsame₁
  have hmem : ∀ b, b ∈ addresses (join .left (cy, y, ky) .nil R) ↔ b = y ∨ b ∈ addresses R := by
    intro b
    rw [mem_addresses_join]
    simp
  have hnodup := hz.replaceable.nodup
  have hperm := ((perm_addresses_join .left (cy, y, ky) .nil R).cons z).append_right (outer ctx)
  have hnil := hz.replaceable.apart
  have hleft := hz.apart
  rw [hperm.nodup_iff] at hnodup
  simp only [addresses_nil, List.nil_append, List.cons_append, List.nodup_cons, List.mem_cons,
    List.mem_append, not_or, hmem] at hnodup hnil hleft hsame₁
  obtain ⟨⟨hzy, hzR, hzOuter⟩, ⟨hyR, hyOuter⟩, hrest⟩ := hnodup
  have hzSame₁ : t₁.nodes z = t.nodes z := hsame₁ z ⟨⟨hzy, hzR⟩, hzOuter⟩ hzy
  have hchild : t₁.child .left z = some (ptr nil L) := by
    rw [RbTree.child, hzSame₁]
    exact hz.child
  have hcell₁ := hholds₁.cell
  obtain ⟨hframes₁, hrep₁⟩ := rep_plug.mp hholds₁.rep
  obtain ⟨-, -, hR₁⟩ := rep_join.mp hrep₁
  rw [ptr_join] at hframes₁
  have hL₁ : Rep t₁.nodes nil z L :=
    hz.left.frame fun b hb ↦ hsame₁ b (hleft b hb).2.2 (hleft b hb).2.2.1.1
  have hdistinct : (y :: addresses L ++ addresses R ++ outer ctx).Nodup ∧
      nil ∉ y :: addresses L ++ addresses R ++ outer ctx ∧
      z ∉ y :: addresses L ++ addresses R ++ outer ctx := by
    have hnodupL := hz.nodup
    grind
  obtain ⟨hdistinct, hnilAll, hzAll⟩ := hdistinct
  obtain ⟨t₂, t₃, hset₂, hchild₂, hset₃, hnil₃, hroot₃, hrep₃, hsame₃⟩ :=
    hL₁.attach hcell₁ hR₁ hL (List.nodup_append.mp hdistinct).1
  have hpermL : ∀ d, (addresses (join .left (d, y, ky) L R) ++ outer ctx).Perm
      (y :: addresses L ++ addresses R ++ outer ctx) := fun d ↦
    (perm_addresses_join .left (d, y, ky) L R).append_right _
  have hholds₃ : Holds t₃.nodes nil (plug ctx (join .left (cy, y, ky) L R)) t₃ := by
    refine holds_plug (hnil₃.trans hholds₁.nil_eq) ?_ ?_ hrep₃ ((hpermL cy).nodup_iff.mpr hdistinct)
      (fun hb ↦ hnilAll ((hpermL cy).mem_iff.mp hb))
    · rw [hroot₃, hholds₁.root, ptr_plug, ptr_join, ptr_join]
    · rw [ptr_join]
      refine hframes₁.frame fun b hb ↦ hsame₃ b fun hb' ↦ ?_
      exact (List.nodup_append.mp hdistinct).2.2 b (List.mem_append_left _ hb') b hb rfl
  have hsame : ∀ b ∉ y :: addresses L ++ addresses R ++ outer ctx, t₃.nodes b = t.nodes b := by
    intro b hb
    simp only [List.cons_append, List.mem_cons, List.mem_append, not_or] at hb
    rw [hsame₃ b (by grind), hsame₁ b (by grind) (by grind)]
  have hcolor : t₃.color z = some c := by
    rw [RbTree.color, hsame z hzAll]
    exact hz.color
  obtain ⟨t', hset', hholds'⟩ := hholds₃.setColor c
  refine ⟨t', ?_, hholds'.self, ?_, ?_⟩
  · simp only [RbTree.takePlace, htransplant, hchild, hset₂, hchild₂, hset₃, hcolor, hset',
      Option.bind_eq_bind, Option.bind_some]
  · obtain ⟨l, hl⟩ := hsentinel
    exact ⟨l, by rw [hholds'.outside nil hholds'.nil, hsame nil hnilAll, hl]⟩
  · have hz' : z ∉ addresses (plug ctx (join .left (c, y, ky) L R)) := fun hb ↦
      hzAll ((hpermL c).mem_iff.mp ((perm_addresses_plug ..).mem_iff.mp hb))
    rw [hholds'.outside z hz', hsame z hzAll]
    intro hnone
    have hcolor := hz.color
    rw [RbTree.color, hnone] at hcolor
    exact absurd hcolor (Option.some_ne_none c).symm

/-- A walk along one side ends at the outermost node. -/
theorem walk_loop {s : Side} {others : Store Node} {w : Color × ℕ × ℤ} (hsides : ∀ f ∈ path, f.side = s)
    (hholds : Holds others nil (plug ctx (plug path (join s w .nil X))) t) :
    Returns (fun fuel ↦ whileLoop (t.walkBody s) fuel (ptr nil (plug path (join s w .nil X)))) w.2.1 := by
  induction path using List.reverseRecOn generalizing ctx with
  | nil =>
    obtain ⟨c, a, k⟩ := w
    rw [plug_nil] at hholds
    rw [plug_nil, ptr_join]
    refine returns_leave ?_
    simp only [RbTree.walkBody, hholds.root_near, ptr_nil, hholds.nil_eq, Option.bind_eq_bind,
      Option.bind_some, if_true, Option.pure_def]
  | append_singleton path f ih =>
    obtain ⟨side, ⟨c, a, k⟩, sibling⟩ := f
    obtain rfl : side = s := hsides _ (List.mem_append_right _ (List.mem_singleton_self _))
    rw [plug_append] at hholds ⊢
    have hinner : plug path (join side w .nil X) ≠ .nil := by
      cases path with
      | nil => exact join_ne_nil side w .nil X
      | cons g path => exact plug_ne_nil g path _
    have hne : ptr nil (plug path (join side w .nil X)) ≠ nil := by
      intro heq
      have hmem := (ptr_mem nil _).resolve_left hinner
      rw [heq] at hmem
      exact hholds.down.distinct.2 (List.mem_append_left _ hmem)
    have hrest := ih (fun f hf ↦ hsides f (List.mem_append_left _ hf)) hholds.down
    refine returns_continue ?_ hrest
    rw [plug_cons, plug_nil, Frame.fill, ptr_join]
    simp only [RbTree.walkBody, hholds.root_near, hholds.nil_eq, if_neg hne, Option.bind_eq_bind,
      Option.bind_some, Option.pure_def]

/-! ### The hole of an erased node -/

/-- The place of the leftmost node of a tree, its color and its right child. -/
def leftmostHole : Tree → Path → Path × Color × Tree
  | .nil, ctx => (ctx, .black, .nil)
  | .node (c, _, _) .nil right, ctx => (ctx, c, right)
  | .node v left right, ctx => leftmostHole left (⟨.left, v, right⟩ :: ctx)

/-- The place from which `rbtree_erase` takes a node when it erases the root of a tree, the color of
that node and the tree that goes there. -/
def rootHole (v : Color × ℕ × ℤ) (ctx : Path) : Tree → Tree → Path × Color × Tree
  | .nil, right => (ctx, v.1, right)
  | left, .nil => (ctx, v.1, left)
  | left, right => leftmostHole right (⟨.right, v, left⟩ :: ctx)

/-- The same for the node at an address. -/
def erasedHole (z : ℕ) : Tree → Path → Option (Path × Color × Tree)
  | .nil, _ => none
  | .node v left right, ctx =>
    if v.2.1 = z then some (rootHole v ctx left right)
    else (erasedHole z left (⟨.left, v, right⟩ :: ctx)).or
      (erasedHole z right (⟨.right, v, left⟩ :: ctx))

/-- Whether the erasure of the node at `z` meets a red sibling on the right in
`rbtree_delete_fixup`. -/
def eraseMeetsRedRight (z : ℕ) (tree : Tree) : Bool :=
  match erasedHole z tree [] with
  | some (hole, .black, X) => meetsRedRight hole (rootColor X)
  | _ => false

/-- Whether the erasure of the node at `z` spoils the tree in `rbtree_delete_fixup`. -/
def eraseFails (z : ℕ) (tree : Tree) : Bool :=
  match erasedHole z tree [] with
  | some (hole, .black, X) => fixupFails hole (rootColor X)
  | _ => false

theorem eraseMeetsRedRight_of_eraseFails (hfails : eraseFails z tree) :
    eraseMeetsRedRight z tree := by
  unfold eraseFails at hfails
  unfold eraseMeetsRedRight
  split at hfails
  · exact meetsRedRight_of_fixupFails hfails
  · exact absurd hfails Bool.false_ne_true

theorem erasedHole_eq_none (hz : z ∉ addresses tree) : erasedHole z tree ctx = none := by
  induction tree generalizing ctx with
  | nil => rfl
  | node v left right ihLeft ihRight =>
    rw [mem_addresses_node, not_or, not_or] at hz
    rw [erasedHole, if_neg (Ne.symm hz.1), ihLeft hz.2.1, ihRight hz.2.2, Option.or_none]

/-- The node at an address and its hole. -/
theorem exists_erasedHole (hz : z ∈ addresses tree) (ctx : Path) :
    ∃ ctx' c k left right, plug ctx tree = plug ctx' (node (c, z, k) left right) ∧
      erasedHole z tree ctx = some (rootHole (c, z, k) ctx' left right) := by
  induction tree generalizing ctx with
  | nil => exact absurd hz List.not_mem_nil
  | node v left right ihLeft ihRight =>
    by_cases hroot : v.2.1 = z
    · subst hroot
      exact ⟨ctx, v.1, v.2.2, left, right, rfl, if_pos rfl⟩
    rw [erasedHole, if_neg hroot]
    by_cases hleft : z ∈ addresses left
    · obtain ⟨ctx', c, k, l, r, hplug, hhole⟩ := ihLeft hleft (⟨.left, v, right⟩ :: ctx)
      exact ⟨ctx', c, k, l, r, hplug, by rw [hhole, Option.some_or]⟩
    · have hmem := (mem_addresses_node.mp hz).resolve_left (Ne.symm hroot)
      obtain ⟨ctx', c, k, l, r, hplug, hhole⟩ :=
        ihRight (hmem.resolve_left hleft) (⟨.right, v, left⟩ :: ctx)
      exact ⟨ctx', c, k, l, r, hplug, by rw [erasedHole_eq_none hleft, Option.none_or, hhole]⟩

/-- The leftmost node of a tree, what is above it and its hole. -/
theorem exists_leftmostHole (v : Color × ℕ × ℤ) (left right : Tree) (ctx : Path) :
    ∃ path w X, node v left right = plug path (node w .nil X) ∧
      (∀ f ∈ path, f.side = .left) ∧
        leftmostHole (node v left right) ctx = (path ++ ctx, w.1, X) := by
  induction left generalizing v right ctx with
  | nil => exact ⟨[], v, right, rfl, fun f hf ↦ absurd hf List.not_mem_nil, rfl⟩
  | node v' left' right' ih _ =>
    obtain ⟨path, w, X, hplug, hsides, hhole⟩ := ih v' right' (⟨.left, v, right⟩ :: ctx)
    refine ⟨path ++ [⟨.left, v, right⟩], w, X, ?_, fun f hf ↦ ?_, ?_⟩
    · rw [plug_append, ← hplug]
      rfl
    · rcases List.mem_append.mp hf with hf | hf
      · exact hsides f hf
      · rw [List.mem_singleton.mp hf]
    · rw [List.append_assoc]
      exact hhole

/-- The addresses and keys above a hole do not matter. -/
theorem recovers_rename {W : Tree} {s : Side} {v v' : ℕ × ℤ} :
    recovers W (path ++ ⟨s, (c, v), L⟩ :: ctx) = recovers W (path ++ ⟨s, (c, v'), L⟩ :: ctx) := by
  cases path with
  | nil => rfl
  | cons f path => rfl

theorem fixupFails_rename {s : Side} {v v' : ℕ × ℤ} (col : Color) :
    fixupFails (path ++ ⟨s, (c, v), L⟩ :: ctx) col =
      fixupFails (path ++ ⟨s, (c, v'), L⟩ :: ctx) col := by
  induction path generalizing col with
  | nil => rfl
  | cons f path ih =>
    rw [List.cons_append, List.cons_append, fixupFails, fixupFails, ih, recovers_rename]

/-- A place in a balanced tree from which a node of the color went and where a tree of the height of
its children is. -/
def Vacant (ctx : Path) (cy : Color) (X : Tree) : Prop :=
  ∃ h, Balanced X h ∧ match cy with
    | .red => rootColor X = .black ∧ Accepts ctx h .black
    | .black => Accepts ctx (h + 1) .black

/-- A child of a node in a balanced tree can go to its place. -/
theorem vacant {s : Side} {v : ℕ × ℤ} {near far : Tree}
    (hbalanced : Balanced (plug ctx (join s (c, v) near far)) h)
    (hroot : rootColor (plug ctx (join s (c, v) near far)) = .black) : Vacant ctx c near := by
  obtain ⟨h', haccepts, hnode⟩ := exists_accepts hbalanced hroot
  rw [rootColor_join] at haccepts
  cases c with
  | red =>
    obtain ⟨hblack, -, hheight, -⟩ := balanced_red.mp hnode
    exact ⟨h', hheight, hblack, haccepts.black⟩
  | black =>
    cases h' with
    | zero => exact absurd hnode not_balanced_black_zero
    | succ h' => exact ⟨h', (balanced_black.mp hnode).1, haccepts⟩

theorem Vacant.rename {s : Side} {v : ℕ × ℤ} (hvacant : Vacant (path ++ ⟨s, (c, v), L⟩ :: ctx) cy X)
    (v' : ℕ × ℤ) : Vacant (path ++ ⟨s, (c, v'), L⟩ :: ctx) cy X := by
  obtain ⟨h, hheight, hplace⟩ := hvacant
  refine ⟨h, hheight, ?_⟩
  cases cy with
  | red => exact ⟨hplace.1, hplace.2.rename v'⟩
  | black => exact hplace.rename v'

/-- The state in which a node has left the tree and `x` is in its place or in that of its
successor. -/
structure Unlinked (t' : RbTree) (nil z : ℕ) (tree : Tree) (ctx : Path) (cy : Color) (X : Tree) :
    Prop where
  holds : Holds t'.nodes nil (plug ctx X) t'
  sentinel : SentinelBelow t'.nodes nil (parentOf nil ctx) X
  vacant : Vacant ctx cy X
  allocated : t'.nodes z ≠ none
  entries : ∃ left k right, entries tree = left ++ (z, k) :: right ∧
    entries (plug ctx X) = left ++ right
  fails : eraseFails z tree = (decide (cy = .black) && fixupFails ctx (rootColor X))

/-- A node with one child at most leaves the tree. -/
theorem unlinked_child {s : Side} {others : Store Node}
    (hholds : Holds others nil (plug ctx (join s (c, z, k) X .nil)) t)
    (hsentinel : Sentinel others nil p)
    (hbalanced : Balanced (plug ctx (join s (c, z, k) X .nil)) h)
    (hroot : rootColor (plug ctx (join s (c, z, k) X .nil)) = .black)
    (hhole : erasedHole z (plug ctx (join s (c, z, k) X .nil)) [] = some (ctx, c, X)) :
    ∃ t', t.rbtreeTransplant z (ptr nil X) = some t' ∧
      Unlinked t' nil z (plug ctx (join s (c, z, k) X .nil)) ctx c X := by
  have hreplaceable := hholds.replaceable hsentinel
  obtain ⟨t', htransplant, hholds', hbelow, hsame⟩ := hreplaceable.transplant
  have hnodup := hreplaceable.nodup
  rw [List.cons_append, List.nodup_cons] at hnodup
  have hzptr : z ≠ ptr nil X := by
    rcases ptr_mem nil X with rfl | hmem
    · exact hholds.root_ne_nil
    · exact (ne_of_mem_of_not_mem hmem fun hb ↦ hnodup.1 (List.mem_append_left _ hb)).symm
  refine ⟨t', htransplant, hholds', hbelow, vacant hbalanced hroot, ?_, ?_, ?_⟩
  · rw [hsame z hnodup.1 hzptr, hholds.cell]
    exact Option.some_ne_none _
  · rw [entries_plug, entries_plug]
    cases s with
    | left =>
      exact ⟨(before ctx).map Prod.snd ++ entries X, k, (after ctx).map Prod.snd,
        by simp [entries, join], rfl⟩
    | right =>
      exact ⟨(before ctx).map Prod.snd, k, entries X ++ (after ctx).map Prod.snd,
        by simp [entries, join], by simp⟩
  · rw [eraseFails, hhole]
    cases c <;> rfl

theorem before_left (hpath : ∀ f ∈ path, f.side = .left) : before path = [] := by
  induction path with
  | nil => rfl
  | cons f path ih =>
    obtain ⟨side, v, sibling⟩ := f
    obtain rfl : side = .left := hpath _ List.mem_cons_self
    exact ih fun f hf ↦ hpath f (List.mem_cons_of_mem _ hf)

/-- The successor of a node leaves its place and takes that of the node. -/
theorem unlinked_successor {others : Store Node} (hL : L ≠ .nil)
    (hpath : ∀ f ∈ path, f.side = .left)
    (hholds : Holds others nil (plug (path ++ ⟨.right, (c, z, k), L⟩ :: ctx)
      (join .left (cy, y, ky) .nil X)) t)
    (hsentinel : Sentinel others nil p)
    (hbalanced : Balanced (plug (path ++ ⟨.right, (c, z, k), L⟩ :: ctx)
      (join .left (cy, y, ky) .nil X)) h)
    (hroot : rootColor (plug (path ++ ⟨.right, (c, z, k), L⟩ :: ctx)
      (join .left (cy, y, ky) .nil X)) = .black)
    (hhole : erasedHole z (plug (path ++ ⟨.right, (c, z, k), L⟩ :: ctx)
      (join .left (cy, y, ky) .nil X)) [] = some (path ++ ⟨.right, (c, z, k), L⟩ :: ctx, cy, X)) :
    ∃ t₁ t', t.detachSuccessor z y (ptr nil X) = some t₁ ∧ t₁.takePlace z y = some t' ∧
      Unlinked t' nil z (plug (path ++ ⟨.right, (c, z, k), L⟩ :: ctx)
        (join .left (cy, y, ky) .nil X)) (path ++ ⟨.right, (c, y, ky), L⟩ :: ctx) cy X := by
  have hsentinel' : ∃ q, Sentinel t.nodes nil q := ⟨p, hholds.sentinel hsentinel⟩
  obtain ⟨q, hsentinel'⟩ := hsentinel'
  have hdetach : ∃ t₁, t.detachSuccessor z y (ptr nil X) = some t₁ ∧
      Extracted t₁ nil z c ctx L (join .left (cy, y, ky) .nil (plug path X)) ∧
      SentinelBelow t₁.nodes nil (parentOf nil (path ++ ⟨.right, (c, y, ky), L⟩ :: ctx)) X := by
    cases path with
    | nil => exact detachSuccessor_root hholds.self hsentinel'
    | cons f path => exact detachSuccessor_below hholds.self hsentinel'
  obtain ⟨t₁, hdetach, hextracted, r, hsentinel₁, hr⟩ := hdetach
  obtain ⟨t', htake, hholds', hsentinel₂, hallocated⟩ := hextracted.takePlace hL hsentinel₁
  have hsplit : ∀ (v : Color × ℕ × ℤ) (V : Tree), plug (path ++ ⟨.right, v, L⟩ :: ctx) V =
      plug ctx (join .right v (plug path V) L) := fun _ _ ↦ plug_append ..
  refine ⟨t₁, t', hdetach, htake, ?_, ⟨r, hsentinel₂, hr⟩, ?_, hallocated, ?_, ?_⟩
  · rw [hsplit]
    exact hholds'
  · refine Vacant.rename (v := (z, k)) ?_ (y, ky)
    exact vacant (s := .right) hbalanced hroot
  · refine ⟨(before ctx).map Prod.snd ++ entries L, k,
      (y, ky) :: (entries (plug path X) ++ (after ctx).map Prod.snd), ?_, ?_⟩
    · rw [hsplit]
      simp [entries, join, inorder_plug, before_left hpath]
    · rw [hsplit]
      simp [entries, join, inorder_plug, before_left hpath]
  · rw [eraseFails, hhole, ← fixupFails_rename (v := (z, k))]
    cases cy <;> rfl

/-- `rbtree_erase` up to the fix-up. -/
theorem unlinkNode_returns {others : Store Node} (hholds : Holds others nil tree t)
    (hsentinel : Sentinel others nil p) (hbalanced : Balanced tree h)
    (hroot : rootColor tree = .black) (hz : z ∈ addresses tree) :
    ∃ t' ctx cy X, Returns (fun fuel ↦ t.unlinkNode fuel z) (t', ptr nil X, cy) ∧
      Unlinked t' nil z tree ctx cy X := by
  obtain ⟨ctx, c, k, left, right, hplug, hhole⟩ := exists_erasedHole hz []
  rw [plug_nil] at hplug
  subst hplug
  have hleft : t.child .left z = some (ptr nil left) := Holds.root_near (s := .left) hholds
  have hright : t.child .right z = some (ptr nil right) := Holds.root_near (s := .right) hholds
  have hcolor : t.color z = some c := Holds.root_color (s := .left) hholds
  have hne : ∀ {s : Side} {near far : Tree}, near ≠ .nil →
      Holds others nil (plug ctx (join s (c, z, k) near far)) t → ptr nil near ≠ t.nil := by
    intro s near far hnear hnode heq
    have hmem := (ptr_mem nil near).resolve_left hnear
    rw [heq, hnode.nil_eq] at hmem
    exact hnode.down.distinct.2 (List.mem_append_left _ hmem)
  by_cases hnilLeft : left = .nil
  · subst hnilLeft
    obtain ⟨t', htransplant, hunlinked⟩ :=
      unlinked_child (s := .right) hholds hsentinel hbalanced hroot hhole
    refine ⟨t', ctx, c, right, ⟨0, fun fuel _ ↦ ?_⟩, hunlinked⟩
    simp only [RbTree.unlinkNode, hleft, hright, hcolor, htransplant, ptr_nil, hholds.nil_eq,
      Option.bind_eq_bind, Option.bind_some, if_true, Option.pure_def]
  have hneLeft := hne (s := .left) hnilLeft hholds
  by_cases hnilRight : right = .nil
  · subst hnilRight
    have hhole' : erasedHole z (plug ctx (node (c, z, k) left .nil)) [] = some (ctx, c, left) := by
      rw [hhole]
      cases left with
      | nil => exact absurd rfl hnilLeft
      | node v l r => rfl
    obtain ⟨t', htransplant, hunlinked⟩ :=
      unlinked_child (s := .left) hholds hsentinel hbalanced hroot hhole'
    refine ⟨t', ctx, c, left, ⟨0, fun fuel _ ↦ ?_⟩, hunlinked⟩
    rw [hholds.nil_eq] at hneLeft
    simp only [RbTree.unlinkNode, hleft, hright, hcolor, htransplant, ptr_nil, hholds.nil_eq,
      if_neg hneLeft, Option.bind_eq_bind, Option.bind_some, if_true, Option.pure_def]
  have hneRight := hne (s := .right) hnilRight hholds
  obtain ⟨v', l', r', rfl⟩ := exists_join .left hnilRight
  obtain ⟨path, ⟨cy, y, ky⟩, X, hleftmost, hpath, hholeBelow⟩ :=
    exists_leftmostHole v' l' r' (⟨.right, (c, z, k), left⟩ :: ctx)
  have hjoin : join .left v' l' r' = plug path (node (cy, y, ky) .nil X) := hleftmost
  have hwhole : plug ctx (node (c, z, k) left (join .left v' l' r')) =
      plug (path ++ ⟨.right, (c, z, k), left⟩ :: ctx) (join .left (cy, y, ky) .nil X) := by
    rw [hjoin, plug_append]
    rfl
  have hhole' : erasedHole z (plug ctx (node (c, z, k) left (join .left v' l' r'))) [] =
      some (path ++ ⟨.right, (c, z, k), left⟩ :: ctx, cy, X) := by
    rw [hhole, ← hholeBelow]
    cases left with
    | nil => exact absurd rfl hnilLeft
    | node v l r => rfl
  rw [hwhole] at hholds hbalanced hroot hhole' ⊢
  obtain ⟨t₁, t', hdetach, htake, hunlinked⟩ :=
    unlinked_successor hnilLeft hpath hholds hsentinel hbalanced hroot hhole'
  refine ⟨t', _, cy, X, ?_, hunlinked⟩
  have hy : t.child .right y = some (ptr nil X) := hholds.root_far
  have hwalk : Returns (fun fuel ↦ t.treeMinimum fuel (ptr nil (join .left v' l' r'))) y := by
    have hbelow : Holds others nil (plug (⟨.right, (c, z, k), left⟩ :: ctx)
        (plug path (join .left (cy, y, ky) .nil X))) t := by
      rw [← plug_append]
      exact hholds
    rw [hjoin]
    exact walk_loop hpath hbelow
  have hrest : Returns (fun _ ↦ do
      let yOriginalColor ← t.color y
      let x ← t.child .right y
      let t ← t.detachSuccessor z y x
      let t ← t.takePlace z y
      return (t, x, yOriginalColor)) (t', ptr nil X, cy) := by
    refine returns_const ?_
    simp only [hholds.root_color, hy, hdetach, htake, Option.bind_eq_bind, Option.bind_some,
      Option.pure_def]
  unfold RbTree.unlinkNode
  simp only [hleft, hright, if_neg hneLeft, if_neg hneRight, Option.bind_eq_bind, Option.bind_some]
  exact hwalk.bind hrest

/-- `free(z)` leaves the tree alone. -/
theorem Holds.freeNode {others : Store Node} (hholds : Holds others nil tree t)
    (hz : z ∉ addresses tree) (hallocated : others z ≠ none) :
    ∃ t', t.freeNode z = some t' ∧ Holds (others.free z) nil tree t' := by
  obtain ⟨n, hn⟩ := Option.ne_none_iff_exists'.mp hallocated
  have hcell : t.nodes z = some n := (hholds.outside z hz).trans hn
  refine ⟨{ t with nodes := t.nodes.free z }, ?_, hholds.nil_eq, hholds.root,
    hholds.rep.frame fun b hb ↦ Store.free_of_ne _ (ne_of_mem_of_not_mem hb hz), hholds.nodup,
    hholds.nil, fun b hb ↦ ?_⟩
  · rw [RbTree.freeNode, hcell, Option.map_some]
  · change t.nodes.free z b = _
    by_cases hbz : b = z
    · rw [hbz, Store.free_self, Store.free_self]
    · rw [Store.free_of_ne _ hbz, Store.free_of_ne _ hbz]
      exact hholds.outside b hb

/-- `free(z)` leaves a spoiled tree spoiled. -/
theorem Spoiled.freeNode {others : Store Node} {sequence : List (ℕ × ℤ)}
    (hspoiled : Spoiled others nil sequence t) (hz : z ∉ sequence.map Prod.fst) (hne : z ≠ nil)
    (hallocated : others z ≠ none) :
    ∃ t', t.freeNode z = some t' ∧ Spoiled (others.free z) nil sequence t' := by
  obtain ⟨others', T, hholds, rfl, hsame, hbad⟩ := hspoiled
  rw [← addresses_eq] at hz
  obtain ⟨t', hfree, hholds'⟩ := hholds.freeNode hz (by rwa [hsame z hne])
  refine ⟨t', hfree, others'.free z, T, hholds', rfl, fun a ha ↦ ?_, hbad.imp_right fun hred p hp ↦ ?_⟩
  · by_cases haz : a = z
    · rw [haz, Store.free_self, Store.free_self]
    · rw [Store.free_of_ne _ haz, Store.free_of_ne _ haz]
      exact hsame a ha
  · obtain ⟨k, hk⟩ := hp
    exact hred p ⟨k, (Store.free_of_ne _ hne.symm).symm.trans hk⟩

/-- `rbtree_erase` takes the node out of the tree. The tree stays balanced, or it is spoiled. -/
theorem rbtreeErase_outcome {others : Store Node} (hholds : Holds others nil tree t)
    (hsentinel : Sentinel others nil p) (hbalanced : Balanced tree h)
    (hroot : rootColor tree = .black) (hz : z ∈ addresses tree) :
    ∃ t' left k right, Returns (fun fuel ↦ t.rbtreeErase fuel z) t' ∧
      entries tree = left ++ (z, k) :: right ∧
      (eraseFails z tree = false → ∃ tree', Holds t'.nodes nil tree' t' ∧
        (∃ p', Sentinel t'.nodes nil p') ∧ (∃ h', Balanced tree' h') ∧ rootColor tree' = .black ∧
        entries tree' = left ++ right) ∧
      (eraseFails z tree = true → ∃ others', Spoiled others' nil (left ++ right) t') := by
  obtain ⟨t₁, ctx, cy, X, hunlink, hunlinked⟩ :=
    unlinkNode_returns hholds hsentinel hbalanced hroot hz
  obtain ⟨q, hsentinel₁, hq⟩ := hunlinked.sentinel
  obtain ⟨h₁, hX, hplace⟩ := hunlinked.vacant
  obtain ⟨left, k, right, hentries, hentries₁⟩ := hunlinked.entries
  have hz₁ : z ∉ (left ++ right).map Prod.fst := by
    have hnodup := hholds.nodup
    rw [addresses_eq, hentries, List.map_append, List.map_cons, List.perm_middle.nodup_iff,
      List.nodup_cons] at hnodup
    rw [List.map_append]
    exact hnodup.1
  have hne : nil ≠ z := by
    rintro rfl
    exact hholds.nil hz
  have hfine : ∀ t₂ T, Holds t₁.nodes nil T t₂ → entries T = left ++ right → ∃ t',
      t₂.freeNode z = some t' ∧ Holds t'.nodes nil T t' ∧ Sentinel t'.nodes nil q := by
    intro t₂ T hholds₂ hentries₂
    have hzT : z ∉ addresses T := by rwa [addresses_eq, hentries₂]
    obtain ⟨t', hfree, hholds'⟩ := hholds₂.freeNode hzT hunlinked.allocated
    obtain ⟨l, hl⟩ := hsentinel₁
    exact ⟨t', hfree, hholds'.self, l, (hholds'.outside nil hholds'.nil).trans
      ((Store.free_of_ne _ hne).trans hl)⟩
  cases cy with
  | red =>
    obtain ⟨h₂, hbalanced₂, hroot₂⟩ := hplace.2.balanced hplace.1 hX
    obtain ⟨t', hfree, hholds', hsentinel'⟩ := hfine t₁ _ hunlinked.holds hentries₁
    refine ⟨t', left, k, right, hunlink.bind (returns_const hfree), hentries, fun _ ↦ ⟨_, hholds',
      ⟨q, hsentinel'⟩, ⟨h₂, hbalanced₂⟩, hroot₂, hentries₁⟩, fun hfails ↦ ?_⟩
    rw [hunlinked.fails] at hfails
    exact absurd hfails Bool.false_ne_true
  | black =>
    have hfails : eraseFails z tree = fixupFails ctx (rootColor X) := hunlinked.fails
    rw [hfails]
    cases hcase : fixupFails ctx (rootColor X) with
    | false =>
      obtain ⟨t₂, T, hfixup, hholds₂, ⟨h', hbalanced', hroot'⟩, hentriesT⟩ :=
        rbtreeDeleteFixup_returns hsentinel₁ hq hunlinked.holds hplace hX hcase
      rw [hentries₁] at hentriesT
      obtain ⟨t', hfree, hholds', hsentinel'⟩ := hfine t₂ T hholds₂ hentriesT
      exact ⟨t', left, k, right, hunlink.bind (hfixup.bind (returns_const hfree)), hentries,
        fun _ ↦ ⟨T, hholds', ⟨q, hsentinel'⟩, ⟨h', hbalanced'⟩, hroot', hentriesT⟩,
        fun hfalse ↦ absurd hfalse Bool.false_ne_true⟩
    | true =>
      obtain ⟨t₂, hfixup, hspoiled⟩ :=
        rbtreeDeleteFixup_spoils hsentinel₁ hq hunlinked.holds hplace hX hcase
      rw [hentries₁] at hspoiled
      obtain ⟨t', hfree, hspoiled'⟩ := hspoiled.freeNode hz₁ hne.symm hunlinked.allocated
      exact ⟨t', left, k, right, hunlink.bind (hfixup.bind (returns_const hfree)), hentries,
        fun htrue ↦ absurd htrue.symm Bool.false_ne_true, fun _ ↦ ⟨_, hspoiled'⟩⟩

end Jungle.RedBlack
