import Jungle.RedBlack.Erase

/-!
# Well-formed trees

A tree is well-formed if its cells are those of a balanced tree with a black root, in the order of the
keys, and its sentinel is black and has no children. `rbtree_insert` keeps every tree well-formed
(`insert_wellFormed`), and `rbtree_erase` does so if and only if its fix-up does not spoil the tree
(`erase_wellFormed_iff`).
-/

set_option autoImplicit false
set_option relaxedAutoImplicit false

namespace Jungle.RedBlack

open BinaryTree Jungle.Lib

/-- The cells are those of a red-black tree of the given shape. -/
structure WellFormed (t : RbTree) (tree : Tree) : Prop where
  holds : Holds t.nodes t.nil tree t
  sentinel : ∃ p, Sentinel t.nodes t.nil p
  balanced : ∃ h, Balanced tree h
  root : rootColor tree = .black
  sorted : Sorted tree

variable {t t' : RbTree} {tree tree' : Tree} {z new : ℕ}

/-- The cells fix the tree. -/
theorem Rep.unique {nodes : Store Node} {nil parent : ℕ} {tree tree' : Tree}
    (h : Rep nodes nil parent tree) (h' : Rep nodes nil parent tree')
    (hptr : ptr nil tree = ptr nil tree') (hnil : nil ∉ addresses tree)
    (hnil' : nil ∉ addresses tree') : tree = tree' := by
  induction tree generalizing tree' parent with
  | nil =>
    rcases ptr_mem nil tree' with rfl | hmem
    · rfl
    · rw [← hptr] at hmem
      exact absurd hmem hnil'
  | node v left right ihLeft ihRight =>
    obtain ⟨c, a, k⟩ := v
    rw [mem_addresses_node, not_or, not_or] at hnil
    cases tree' with
    | nil => exact absurd hptr.symm hnil.1
    | node v' left' right' =>
      obtain ⟨c', a', k'⟩ := v'
      obtain rfl : a = a' := hptr
      rw [mem_addresses_node, not_or, not_or] at hnil'
      obtain ⟨hcell, hleft, hright⟩ := h
      obtain ⟨hcell', hleft', hright'⟩ := h'
      rw [hcell, Option.some.injEq, Node.mk.injEq] at hcell'
      obtain ⟨rfl, rfl, -, hptrLeft, hptrRight⟩ := hcell'
      rw [ihLeft hleft hleft' hptrLeft hnil.2.1 hnil'.2.1,
        ihRight hright hright' hptrRight hnil.2.2 hnil'.2.2]

/-- A state fixes its tree. -/
theorem Holds.tree_unique {others others' : Store Node} {nil : ℕ} {t : RbTree} {tree' : Tree}
    (h : Holds others nil tree t) (h' : Holds others' nil tree' t) : tree = tree' :=
  h.rep.unique h'.rep (h.root.symm.trans h'.root) h.nil h'.nil

/-- A spoiled tree is not well-formed. -/
theorem WellFormed.not_spoiled {others : Store Node} {nil : ℕ} {sequence : List (ℕ × ℤ)}
    (h : WellFormed t tree) : ¬Spoiled others nil sequence t := by
  rintro ⟨others', T, hholds, -, -, hbad⟩
  obtain rfl := hholds.nil_eq
  obtain rfl := h.holds.tree_unique hholds
  rcases hbad with hunbalanced | hred
  · obtain ⟨height, hbalanced⟩ := h.balanced
    exact hunbalanced height hbalanced
  · obtain ⟨p, k, hcell⟩ := h.sentinel
    exact hred p ⟨k, (hholds.outside _ hholds.nil).symm.trans hcell⟩

/-! ### A tree with a red node on the right -/

/-- Five nodes, of which the right child of the root is red. -/
def leaningTree : Tree :=
  .node (.black, 1, 2) (.node (.black, 2, 1) .nil .nil)
    (.node (.red, 3, 4) (.node (.black, 4, 3) .nil .nil) (.node (.black, 5, 5) .nil .nil))

/-- The cells of `leaningTree`. -/
def leaning : RbTree where
  root := 1
  nil := 0
  nodes := (((((Store.empty.put 0 ⟨.black, 0, 0, 0, 0⟩).put 1 ⟨.black, 2, 0, 2, 3⟩).put 2
    ⟨.black, 1, 1, 0, 0⟩).put 3 ⟨.red, 4, 1, 4, 5⟩).put 4 ⟨.black, 3, 3, 0, 0⟩).put 5
      ⟨.black, 5, 3, 0, 0⟩

theorem leaning_wellFormed : WellFormed leaning leaningTree where
  holds := ⟨rfl, rfl, ⟨rfl, ⟨rfl, trivial, trivial⟩, rfl, ⟨rfl, trivial, trivial⟩, rfl, trivial,
    trivial⟩, by decide, by decide, fun _ _ ↦ rfl⟩
  sentinel := ⟨0, 0, rfl⟩
  balanced := ⟨2, 1, rfl, ⟨0, rfl, rfl, rfl⟩, rfl, rfl, ⟨0, rfl, rfl, rfl⟩, 0, rfl, rfl, rfl⟩
  root := rfl
  sorted := by
    unfold Sorted
    decide

/-! ### Insertion -/

/-- An insertion puts one node into the sequence of the tree. -/
theorem WellFormed.insert (h : WellFormed t tree) (key : ℤ) (hnew : t.nodes new = none) :
    ∃ t' tree', Returns (fun fuel ↦ t.rbtreeInsert fuel key new) (new, t') ∧ WellFormed t' tree' ∧
      ∃ left right, entries tree = left ++ right ∧ entries tree' = left ++ (new, key) :: right := by
  obtain ⟨p, hsentinel⟩ := h.sentinel
  obtain ⟨height, hbalanced⟩ := h.balanced
  obtain ⟨t', tree', hreturns, hholds, hbalanced', hroot, hsorted, left, right, hold, hinserted⟩ :=
    rbtreeInsert_returns key h.holds hsentinel hbalanced h.root h.sorted hnew
  have hne : t.nil ≠ new := by
    obtain ⟨k, hk⟩ := hsentinel
    rintro rfl
    rw [hk] at hnew
    exact absurd hnew (Option.some_ne_none _)
  have hsentinel' : Sentinel (t.nodes.put new ⟨.red, key, t.nil, t.nil, t.nil⟩) t.nil p := by
    obtain ⟨k, hk⟩ := hsentinel
    exact ⟨k, (Store.put_of_ne _ hne _).trans hk⟩
  refine ⟨t', tree', hreturns, ⟨?_, ⟨p, ?_⟩, hbalanced', hroot, hsorted⟩, left, right, hold,
    hinserted⟩
  · rw [← hholds.nil_eq] at hholds
    exact hholds.self
  · rw [hholds.nil_eq]
    exact hholds.sentinel hsentinel'

/-- `rbtree_insert` returns the node it adds and keeps the tree well-formed. -/
theorem insert_wellFormed (h : WellFormed t tree) (key : ℤ) (hnew : t.nodes new = none) :
    ∃ t' tree', Returns (fun fuel ↦ t.rbtreeInsert fuel key new) (new, t') ∧ WellFormed t' tree' ∧
      (entries tree').Perm ((new, key) :: entries tree) := by
  obtain ⟨t', tree', hreturns, hwell, left, right, hold, hinserted⟩ := h.insert key hnew
  refine ⟨t', tree', hreturns, hwell, ?_⟩
  rw [hold, hinserted]
  exact List.perm_middle

/-- A key that is there already goes into the tree. -/
theorem insert_wellFormed_leaning : ∃ t' tree',
    Returns (fun fuel ↦ leaning.rbtreeInsert fuel 3 6) (6, t') ∧ WellFormed t' tree' ∧
      (entries tree').Perm ((6, 3) :: entries leaningTree) :=
  insert_wellFormed leaning_wellFormed 3 rfl

/-! ### Deletion -/

/-- An erasure takes the node out of the sequence of the tree, and the tree stays well-formed unless the
fix-up spoils it. -/
theorem WellFormed.erase (h : WellFormed t tree) (hz : z ∈ addresses tree) :
    ∃ t', Returns (fun fuel ↦ t.rbtreeErase fuel z) t' ∧
      (eraseFails z tree = false → ∃ tree', WellFormed t' tree' ∧
        ∃ left k right, entries tree = left ++ (z, k) :: right ∧ entries tree' = left ++ right) ∧
      (eraseFails z tree = true → ∀ tree', ¬WellFormed t' tree') := by
  obtain ⟨p, hsentinel⟩ := h.sentinel
  obtain ⟨height, hbalanced⟩ := h.balanced
  obtain ⟨t', left, k, right, hreturns, hold, hfine, hspoiled⟩ :=
    rbtreeErase_outcome h.holds hsentinel hbalanced h.root hz
  refine ⟨t', hreturns, fun hfails ↦ ?_, fun hfails tree' hwell ↦ ?_⟩
  · obtain ⟨tree', hholds, ⟨p', hsentinel'⟩, hbalanced', hroot, herased⟩ := hfine hfails
    refine ⟨tree', ⟨?_, ⟨p', ?_⟩, hbalanced', hroot, ?_⟩, left, k, right, hold, herased⟩
    · rw [← hholds.nil_eq] at hholds
      exact hholds
    · rw [hholds.nil_eq]
      exact hsentinel'
    · have hsorted := h.sorted
      rw [Sorted, hold] at hsorted
      rw [Sorted, herased]
      exact hsorted.sublist ((List.sublist_cons_self _ _).append_left _)
  · obtain ⟨others', hspoiled⟩ := hspoiled hfails
    exact hwell.not_spoiled hspoiled

/-- `rbtree_erase` keeps the tree well-formed if and only if the fix-up does not meet a red sibling on
the right from which it does not recover. -/
theorem erase_wellFormed_iff (h : WellFormed t tree) (hz : z ∈ addresses tree) :
    (∃ t' tree', Returns (fun fuel ↦ t.rbtreeErase fuel z) t' ∧ WellFormed t' tree') ↔
      eraseFails z tree = false := by
  obtain ⟨t', hreturns, hfine, hspoiled⟩ := h.erase hz
  constructor
  · rintro ⟨t'', tree', hreturns', hwell⟩
    obtain rfl := hreturns.unique hreturns'
    exact Bool.eq_false_iff.mpr fun hfails ↦ hspoiled hfails tree' hwell
  · intro hfails
    obtain ⟨tree', hwell, -⟩ := hfine hfails
    exact ⟨t', tree', hreturns, hwell⟩

/-- The erasure of the red node. -/
theorem erase_wellFormed_leaning : ∃ t' tree',
    Returns (fun fuel ↦ leaning.rbtreeErase fuel 3) t' ∧ WellFormed t' tree' :=
  (erase_wellFormed_iff leaning_wellFormed (by decide)).mpr (by decide)

/-- The erasure of the node on the left, whose sibling is red, spoils the tree. -/
theorem not_erase_wellFormed : ¬∀ (t : RbTree) (tree : Tree) (z : ℕ), WellFormed t tree →
    z ∈ addresses tree → ∃ t' tree', Returns (fun fuel ↦ t.rbtreeErase fuel z) t' ∧
      WellFormed t' tree' := by
  intro hall
  have hmem : 2 ∈ addresses leaningTree := by decide
  obtain ⟨t', tree', hreturns, hwell⟩ := hall leaning leaningTree 2 leaning_wellFormed hmem
  obtain ⟨t'', hreturns', -, hspoiled⟩ := leaning_wellFormed.erase hmem
  obtain rfl := hreturns.unique hreturns'
  exact hspoiled (by decide) tree' hwell

end Jungle.RedBlack
