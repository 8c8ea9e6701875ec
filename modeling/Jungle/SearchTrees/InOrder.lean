import Jungle.SearchTrees.Traversals

/-!
# The traversals with one stack

The walk of `inOrderIterative` from a tree prints its items in order and leaves the stack as it was
(`walk_leads`), by induction on the tree: a round that starts at a node is the round that starts at
its left child with the node on the stack (`walkBody_descend`). `preOrderIterative` has the same body,
so that it prints the in-order, too.
-/

set_option autoImplicit false
set_option relaxedAutoImplicit false

namespace Jungle.SearchTrees

open BinaryTree Jungle.Lib

variable {malloc : Store StackNode → Option ℕ} {nodes : Store BSTNode} {cells cells' : Store StackNode}
  {x l r top : Option ℕ} {a new fuel : ℕ} {v : ℤ} {t left : Entries} {stack : List ℕ}

/-! ### The walk down the left children -/

/-- The walk down the left children of a tree ends. -/
theorem exists_pushLeft (malloc : Store StackNode → Option ℕ) (h : Rep nodes x t)
    (hfuel : t.numNodes < fuel) (top : Option ℕ) (cells : Store StackNode) :
    ∃ result, whileLoop (pushLeftBody malloc nodes) fuel (x, top, cells) = some result := by
  obtain ⟨fuel, rfl⟩ : ∃ n, fuel = n + 1 := ⟨fuel - 1, by omega⟩
  induction t generalizing x top cells fuel with
  | nil =>
    obtain rfl : x = none := h
    exact ⟨_, whileLoop_leave rfl fuel⟩
  | node entry left right ihLeft _ =>
    obtain ⟨a, v⟩ := entry
    obtain ⟨rfl, l, r, hcell, hleft, -⟩ := h
    rw [numNodes] at hfuel
    obtain ⟨fuel, rfl⟩ : ∃ n, fuel = n + 1 := ⟨fuel - 1, by omega⟩
    have hbody : pushLeftBody malloc nodes (some a, top, cells) =
        some (.inl (l, (push malloc cells top (some a)).1, (push malloc cells top (some a)).2)) := by
      simp only [pushLeftBody, hcell, Option.bind_eq_bind, Option.bind_some, Option.pure_def]
    rw [whileLoop_continue hbody]
    exact ihLeft hleft _ _ fuel (by omega)

/-- The walk from a node goes on from its left child with the node on the stack. -/
theorem pushLeft_descend (hcell : nodes a = some ⟨v, l, r⟩) (hleft : Rep nodes l left)
    (hfuel : left.numNodes + 1 < fuel) (hpush : push malloc cells top (some a) = (some new, cells')) :
    whileLoop (pushLeftBody malloc nodes) fuel (some a, top, cells) =
      whileLoop (pushLeftBody malloc nodes) fuel (l, some new, cells') := by
  obtain ⟨fuel, rfl⟩ : ∃ n, fuel = n + 1 := ⟨fuel - 1, by omega⟩
  have hbody : pushLeftBody malloc nodes (some a, top, cells) =
      some (.inl (l, some new, cells')) := by
    simp only [pushLeftBody, hpush, hcell, Option.bind_eq_bind, Option.bind_some, Option.pure_def]
  have hless : left.numNodes < fuel := by omega
  obtain ⟨result, hresult⟩ := exists_pushLeft malloc hleft hless (some new) cells'
  rw [whileLoop_continue hbody, hresult]
  exact (settles_whileLoop _ fuel (fuel + 1) result (Nat.le_succ fuel) hresult).symm

/-! ### The in-order -/

/-- The round from a node is the round from its left child with the node on the stack. -/
theorem walkBody_descend (hcell : nodes a = some ⟨v, l, r⟩) (hleft : Rep nodes l left)
    (hfuel : left.numNodes + 1 < fuel) (hpush : push malloc cells top (some a) = (some new, cells'))
    (printed : List ℤ) : walkBody malloc nodes fuel ⟨some a, top, cells, printed⟩ =
      walkBody malloc nodes fuel ⟨l, some new, cells', printed⟩ := by
  unfold walkBody
  rw [if_pos (Or.inl (Option.some_ne_none a)), if_pos (Or.inr (Option.some_ne_none new))]
  dsimp only
  rw [pushLeft_descend hcell hleft hfuel hpush]

/-- The round with no node to go on from prints the top of the stack. -/
theorem walkBody_print (malloc : Store StackNode → Option ℕ)
    (hs : Stacks cells top none (a :: stack) []) (hcell : nodes a = some ⟨v, l, r⟩) :
    ∃ next cells', Stacks cells' next none stack [] ∧
      ∀ fuel, 0 < fuel → ∀ printed, walkBody malloc nodes fuel ⟨none, top, cells, printed⟩ =
        some (.inl ⟨r, next, cells', printed ++ [v]⟩) := by
  obtain ⟨next, cells', hpop, hs'⟩ := hs.pop
  have hne : top ≠ none := fun heq ↦ List.cons_ne_nil _ _ (hs.top_eq_none_iff.mp heq)
  refine ⟨next, cells', hs', fun fuel hfuel printed ↦ ?_⟩
  obtain ⟨fuel, rfl⟩ : ∃ n, fuel = n + 1 := ⟨fuel - 1, by omega⟩
  have hinner : whileLoop (pushLeftBody malloc nodes) (fuel + 1) (none, top, cells) =
      some (top, cells) := whileLoop_leave rfl fuel
  have hcond : (none : Option ℕ) ≠ none ∨ top ≠ none := Or.inr hne
  simp only [walkBody, if_pos hcond, hinner, hpop, hcell, Option.bind_eq_bind, Option.bind_some,
    Option.pure_def]

/-- The walk from a tree prints its items in order and leaves the stack as it was. -/
theorem walk_leads (hmalloc : Allocates malloc) (h : Rep nodes x t)
    (hs : Stacks cells top none stack []) (printed : List ℤ) :
    ∃ top' cells', Stacks cells' top' none stack [] ∧ ∀ fuel, t.numNodes < fuel →
      Leads (walkBody malloc nodes fuel) t.numNodes ⟨x, top, cells, printed⟩
        ⟨none, top', cells', printed ++ items t⟩ := by
  induction t generalizing x top cells stack printed with
  | nil =>
    obtain rfl : x = none := h
    refine ⟨top, cells, hs, fun fuel _ ↦ ?_⟩
    rw [items_nil, List.append_nil]
    exact Leads.refl _
  | node entry left right ihLeft ihRight =>
    obtain ⟨a, v⟩ := entry
    obtain ⟨rfl, l, r, hcell, hleft, hright⟩ := h
    obtain ⟨new, cells₁, hpush, hs₁⟩ := hs.push hmalloc a
    obtain ⟨top₂, cells₂, hs₂, hleads₂⟩ := ihLeft hleft hs₁ printed
    obtain ⟨next, cells₃, hs₃, hprint⟩ := walkBody_print malloc hs₂ hcell
    obtain ⟨top₄, cells₄, hs₄, hleads₄⟩ := ihRight hright hs₃ (printed ++ items left ++ [v])
    refine ⟨top₄, cells₄, hs₄, fun fuel hfuel ↦ ?_⟩
    rw [numNodes] at hfuel ⊢
    have hround := Leads.single (hprint fuel (by omega) (printed ++ items left))
    have hrounds := ((hleads₂ fuel (by omega)).trans hround).trans (hleads₄ fuel (by omega))
    have hcount : left.numNodes + 1 + right.numNodes = left.numNodes + right.numNodes + 1 := by omega
    have hitems : printed ++ items left ++ [v] ++ items right =
        printed ++ items (node (a, v) left right) := by simp
    rw [hcount, hitems] at hrounds
    exact hrounds.congr (Nat.succ_pos _)
      (walkBody_descend hcell hleft (by omega) hpush printed)

/-- The loop ends with an empty stack and no node to go on from. -/
theorem walkBody_leave (cells : Store StackNode) (fuel : ℕ) (printed : List ℤ) :
    walkBody malloc nodes fuel ⟨none, none, cells, printed⟩ = some (.inr (printed, cells)) :=
  if_neg fun hcond ↦ hcond.elim (fun h ↦ h rfl) fun h ↦ h rfl

/-- `inOrderIterative` prints the items of a tree in order. -/
theorem inOrderIterative_returns (hmalloc : Allocates malloc) (hspacious : Spacious cells)
    (h : Rep nodes x t) : ∃ cells',
      Returns (fun fuel ↦ inOrderIterative malloc nodes fuel cells x) (items t, cells') := by
  unfold inOrderIterative
  by_cases hnull : x = none
  · obtain rfl := h.eq_none_iff.mp hnull
    exact ⟨cells, 0, fun fuel _ ↦ if_pos hnull⟩
  · obtain ⟨top', cells', hs', hleads⟩ := walk_leads hmalloc h (stacks_empty hspacious) []
    obtain rfl := hs'.top_eq_none_iff.mpr rfl
    refine ⟨cells', t.numNodes, fun fuel hfuel ↦ ?_⟩
    rw [List.nil_append] at hleads
    simp only [if_neg hnull]
    exact (hleads fuel hfuel).whileLoop_eq (walkBody_leave cells' fuel (items t)) hfuel

/-! ### The pre-order -/

/-- `preOrderIterative` prints the pre-order of a search tree if and only if no node has a left
child. -/
theorem preOrderIterative_iff (hmalloc : Allocates malloc) (hspacious : Spacious cells)
    (h : Rep nodes x t) (hordered : StrictlyOrdered t) :
    (∃ cells', Returns (fun fuel ↦ preOrderIterative malloc nodes fuel cells x)
      ((preorder t).map Prod.snd, cells')) ↔ NoLeftChild t := by
  rw [← preorder_eq_inorder_iff hordered]
  obtain ⟨cells₁, hreturns₁⟩ := inOrderIterative_returns hmalloc hspacious h
  constructor
  · rintro ⟨cells', hreturns⟩
    exact congrArg Prod.fst (hreturns.unique hreturns₁)
  · intro heq
    rw [heq]
    exact ⟨cells₁, hreturns₁⟩

/-- The item 1 with the item 2 as its right child. -/
def leaningRight : Store BSTNode :=
  (Store.empty.put 1 ⟨1, none, some 2⟩).put 2 ⟨2, none, none⟩

/-- The item 2 with the item 1 as its left child. -/
def leaningLeft : Store BSTNode :=
  (Store.empty.put 1 ⟨2, some 2, none⟩).put 2 ⟨1, none, none⟩

theorem rep_leaningRight : Rep leaningRight (some 1) (node (1, 1) nil (node (2, 2) nil nil)) :=
  ⟨rfl, none, some 2, rfl, rfl, rfl, none, none, rfl, rfl, rfl⟩

theorem rep_leaningLeft : Rep leaningLeft (some 1) (node (1, 2) (node (2, 1) nil nil) nil) :=
  ⟨rfl, some 2, none, rfl, ⟨rfl, none, none, rfl, rfl, rfl⟩, rfl⟩

/-- A tree that leans to the right. -/
theorem preOrderIterative_iff_right : ∃ cells', Returns
    (fun fuel ↦ preOrderIterative firstFree leaningRight fuel Store.empty (some 1)) ([1, 2], cells') :=
  (preOrderIterative_iff allocates_firstFree spacious_empty rep_leaningRight
    (strictlyOrdered_iff.mpr (by decide))).mpr ⟨rfl, rfl, trivial⟩

/-- The left child is printed before its parent. -/
theorem not_preOrderIterative : ¬∀ (malloc : Store StackNode → Option ℕ) (nodes : Store BSTNode)
    (cells : Store StackNode) (x : Option ℕ) (t : Entries), Allocates malloc → Spacious cells →
      Rep nodes x t → StrictlyOrdered t →
        ∃ cells', Returns (fun fuel ↦ preOrderIterative malloc nodes fuel cells x)
          ((preorder t).map Prod.snd, cells') := by
  intro hall
  obtain ⟨cells', hreturns⟩ := hall firstFree leaningLeft Store.empty (some 1) _
    allocates_firstFree spacious_empty rep_leaningLeft (strictlyOrdered_iff.mpr (by decide))
  obtain ⟨cells₁, hreturns₁⟩ :=
    inOrderIterative_returns allocates_firstFree spacious_empty rep_leaningLeft
  have hprinted : ([2, 1] : List ℤ) = [1, 2] := congrArg Prod.fst (hreturns.unique hreturns₁)
  exact absurd hprinted (by decide)

end Jungle.SearchTrees
