import Jungle.SearchTrees.InOrder

/-!
# The post-order traversals

`postOrderIterativeS1` goes down to the right of a node unless it comes back from there, which it
tells from the pointer `lastVisited`. Its walk from a tree without that pointer prints the items of
the tree in post-order, and the pointer is that of the tree afterwards (`postWalk_leads`).
`postOrderIterativeS2` collects the nodes on its second stack, which is the post-order of the tree from
the top (`collect_leads`), and prints that stack.
-/

set_option autoImplicit false
set_option relaxedAutoImplicit false

namespace Jungle.SearchTrees

open BinaryTree Jungle.Lib

variable {malloc : Store StackNode → Option ℕ} {nodes : Store BSTNode} {cells cells' : Store StackNode}
  {x l r top top' visited : Option ℕ} {a b new fuel : ℕ} {v : ℤ} {t left right : Entries}
  {stack out : List ℕ}

/-- The items of a tree in post-order. -/
def postItems (t : Entries) : List ℤ := (postorder t).map Prod.snd

@[simp] theorem postItems_nil : postItems nil = [] := rfl

@[simp] theorem postItems_node (a : ℕ) (v : ℤ) (left right : Entries) :
    postItems (node (a, v) left right) = postItems left ++ postItems right ++ [v] := by
  simp [postItems]

/-! ### One stack -/

/-- The rounds of the loop of `postOrderIterativeS1` from a tree. -/
def postRounds : Entries → ℕ
  | nil => 0
  | node _ left nil => postRounds left + 1
  | node _ left (node entry l r) => postRounds left + 1 + postRounds (node entry l r) + 1

theorem postRounds_le (t : Entries) : postRounds t ≤ 2 * t.numNodes := by
  induction t with
  | nil => exact Nat.zero_le _
  | node entry left right ihLeft ihRight =>
    cases right with
    | nil =>
      simp only [postRounds, numNodes]
      omega
    | node entry' left' right' =>
      simp only [postRounds, numNodes] at ihRight ⊢
      omega

/-- The round from a node is the round from its left child with the node on the stack. -/
theorem postWalkBody_descend (hcell : nodes a = some ⟨v, l, r⟩) (hleft : Rep nodes l left)
    (hfuel : left.numNodes + 1 < fuel) (hpush : push malloc cells top (some a) = (some new, cells'))
    (printed : List ℤ) (visited : Option ℕ) :
    postWalkBody malloc nodes fuel ⟨⟨some a, top, cells, printed⟩, visited⟩ =
      postWalkBody malloc nodes fuel ⟨⟨l, some new, cells', printed⟩, visited⟩ := by
  unfold postWalkBody
  rw [if_pos (Or.inl (Option.some_ne_none a)), if_pos (Or.inr (Option.some_ne_none new))]
  dsimp only
  rw [pushLeft_descend hcell hleft hfuel hpush]

/-- The round that comes to a node from the left goes on to the right. -/
theorem postWalkBody_right (malloc : Store StackNode → Option ℕ)
    (hs : Stacks cells top none (a :: stack) []) (hcell : nodes a = some ⟨v, l, some b⟩)
    (hvisited : visited ≠ some b) (hfuel : 0 < fuel) (printed : List ℤ) :
    postWalkBody malloc nodes fuel ⟨⟨none, top, cells, printed⟩, visited⟩ =
      some (.inl ⟨⟨some b, top, cells, printed⟩, visited⟩) := by
  have hne : top ≠ none := fun heq ↦ List.cons_ne_nil _ _ (hs.top_eq_none_iff.mp heq)
  obtain ⟨fuel, rfl⟩ : ∃ n, fuel = n + 1 := ⟨fuel - 1, by omega⟩
  have hinner : whileLoop (pushLeftBody malloc nodes) (fuel + 1) (none, top, cells) =
      some (top, cells) := whileLoop_leave rfl fuel
  have hcond : (none : Option ℕ) ≠ none ∨ top ≠ none := Or.inr hne
  have hright : some b ≠ none ∧ visited ≠ some b := ⟨Option.some_ne_none b, hvisited⟩
  simp only [postWalkBody, if_pos hcond, hinner, hs.peek_eq, hcell, if_pos hright,
    Option.bind_eq_bind, Option.bind_some, Option.pure_def]

/-- The round that comes to a node without a right child, or from there, prints the node. -/
theorem postWalkBody_print (malloc : Store StackNode → Option ℕ)
    (hs : Stacks cells top none (a :: stack) []) (hcell : nodes a = some ⟨v, l, r⟩)
    (hvisited : r = none ∨ visited = r) : ∃ next cells', Stacks cells' next none stack [] ∧
      ∀ fuel, 0 < fuel → ∀ printed,
        postWalkBody malloc nodes fuel ⟨⟨none, top, cells, printed⟩, visited⟩ =
          some (.inl ⟨⟨none, next, cells', printed ++ [v]⟩, some a⟩) := by
  obtain ⟨next, cells', hpop, hs'⟩ := hs.pop
  have hne : top ≠ none := fun heq ↦ List.cons_ne_nil _ _ (hs.top_eq_none_iff.mp heq)
  refine ⟨next, cells', hs', fun fuel hfuel printed ↦ ?_⟩
  obtain ⟨fuel, rfl⟩ : ∃ n, fuel = n + 1 := ⟨fuel - 1, by omega⟩
  have hinner : whileLoop (pushLeftBody malloc nodes) (fuel + 1) (none, top, cells) =
      some (top, cells) := whileLoop_leave rfl fuel
  have hcond : (none : Option ℕ) ≠ none ∨ top ≠ none := Or.inr hne
  have hright : ¬(r ≠ none ∧ visited ≠ r) := fun hboth ↦ hvisited.elim hboth.1 hboth.2
  simp only [postWalkBody, if_pos hcond, hinner, hs.peek_eq, hcell, if_neg hright, hpop,
    Option.bind_eq_bind, Option.bind_some, Option.pure_def]

theorem root_mem_addresses (a : ℕ) (v : ℤ) (left right : Entries) :
    a ∈ addresses (node (a, v) left right) := by
  rw [addresses_node]
  exact List.mem_append_right _ List.mem_cons_self

/-- A pointer outside a node and its trees. -/
theorem apart_of_node (hnodup : (addresses (node (a, v) left right)).Nodup)
    (hleft : Rep nodes l left)
    (hvisited : ∀ c ∈ addresses (node (a, v) left right), visited ≠ some c) :
    (∀ c ∈ addresses left, visited ≠ some c) ∧ ∀ c ∈ addresses right, l.or visited ≠ some c := by
  rw [addresses_node] at hvisited
  refine ⟨fun c hc ↦ hvisited c (List.mem_append_left _ hc), fun c hc ↦ ?_⟩
  obtain ⟨-, -, -, -, hdisjoint⟩ := nodup_node hnodup
  cases left with
  | nil =>
    obtain rfl : l = none := hleft
    exact hvisited c (List.mem_append_right _ (List.mem_cons_of_mem _ hc))
  | node entry left' right' =>
    obtain rfl := hleft.1
    rw [Option.some_or]
    exact fun heq ↦ hdisjoint entry.1 (root_mem_addresses entry.1 entry.2 left' right')
      (Option.some.inj heq ▸ hc)

/-- The walk from a tree that the last visited node is not in prints its items in post-order, and the
root is the last visited node afterwards. -/
theorem postWalk_leads (hmalloc : Allocates malloc) (h : Rep nodes x t)
    (hnodup : (addresses t).Nodup) (hs : Stacks cells top none stack [])
    (hvisited : ∀ c ∈ addresses t, visited ≠ some c) (printed : List ℤ) :
    ∃ top' cells', Stacks cells' top' none stack [] ∧ ∀ fuel, t.numNodes < fuel →
      Leads (postWalkBody malloc nodes fuel) (postRounds t)
        ⟨⟨x, top, cells, printed⟩, visited⟩
        ⟨⟨none, top', cells', printed ++ postItems t⟩, x.or visited⟩ := by
  induction t generalizing x top cells stack printed visited with
  | nil =>
    obtain rfl : x = none := h
    refine ⟨top, cells, hs, fun fuel _ ↦ ?_⟩
    rw [postItems_nil, List.append_nil]
    exact Leads.refl _
  | node entry left right ihLeft ihRight =>
    obtain ⟨a, v⟩ := entry
    obtain ⟨rfl, l, r, hcell, hleft, hright⟩ := h
    obtain ⟨hnodupLeft, hnodupRight, -⟩ := nodup_node hnodup
    obtain ⟨hvisitedLeft, hvisitedRight⟩ := apart_of_node hnodup hleft hvisited
    obtain ⟨new, cells₁, hpush, hs₁⟩ := hs.push hmalloc a
    obtain ⟨top₂, cells₂, hs₂, hleads₂⟩ := ihLeft hleft hnodupLeft hs₁ hvisitedLeft printed
    cases right with
    | nil =>
      obtain rfl : r = none := hright
      obtain ⟨next, cells₃, hs₃, hprint⟩ := postWalkBody_print malloc hs₂ hcell
        (Or.inl rfl : none = none ∨ l.or visited = none)
      refine ⟨next, cells₃, hs₃, fun fuel hfuel ↦ ?_⟩
      rw [numNodes] at hfuel
      have hrounds := (hleads₂ fuel (by omega)).trans
        (Leads.single (hprint fuel (by omega) (printed ++ postItems left)))
      rw [postRounds, postItems_node, postItems_nil, List.append_nil, ← List.append_assoc]
      exact hrounds.congr (Nat.succ_pos _)
        (postWalkBody_descend hcell hleft (by omega) hpush printed visited)
    | node entry' left' right' =>
      obtain rfl := hright.1
      obtain ⟨top₃, cells₃, hs₃, hleads₃⟩ := ihRight hright hnodupRight hs₂ hvisitedRight
        (printed ++ postItems left)
      obtain ⟨next, cells₄, hs₄, hprint⟩ := postWalkBody_print malloc hs₃ hcell
        (Or.inr rfl : some entry'.1 = none ∨ (some entry'.1).or (l.or visited) = some entry'.1)
      refine ⟨next, cells₄, hs₄, fun fuel hfuel ↦ ?_⟩
      rw [numNodes] at hfuel
      have hpos : 0 < fuel := by omega
      have hright := Leads.single (postWalkBody_right malloc hs₂ hcell
        (hvisitedRight _ (root_mem_addresses entry'.1 entry'.2 left' right')) hpos
        (printed ++ postItems left))
      have hprinted := Leads.single (hprint fuel (by omega)
        (printed ++ postItems left ++ postItems (node entry' left' right')))
      have hrounds := (((hleads₂ fuel (by omega)).trans hright).trans
        (hleads₃ fuel (by omega))).trans hprinted
      rw [postRounds, postItems_node, ← List.append_assoc, ← List.append_assoc]
      exact hrounds.congr (Nat.succ_pos _)
        (postWalkBody_descend hcell hleft (by omega) hpush printed visited)

/-- The loop ends with an empty stack and no node to go on from. -/
theorem postWalkBody_leave (cells : Store StackNode) (fuel : ℕ) (printed : List ℤ)
    (visited : Option ℕ) : postWalkBody malloc nodes fuel ⟨⟨none, none, cells, printed⟩, visited⟩ =
      some (.inr (printed, cells)) :=
  if_neg fun hcond ↦ hcond.elim (fun h ↦ h rfl) fun h ↦ h rfl

/-- `postOrderIterativeS1` prints the items of a tree in post-order. -/
theorem postOrderIterativeS1_returns (hmalloc : Allocates malloc) (hspacious : Spacious cells)
    (h : Rep nodes x t) (hnodup : (addresses t).Nodup) : ∃ cells',
      Returns (fun fuel ↦ postOrderIterativeS1 malloc nodes fuel cells x) (postItems t, cells') := by
  unfold postOrderIterativeS1
  by_cases hnull : x = none
  · obtain rfl := h.eq_none_iff.mp hnull
    exact ⟨cells, 0, fun fuel _ ↦ if_pos hnull⟩
  · have hvisited : ∀ c ∈ addresses t, none ≠ some c := fun c _ ↦ (Option.some_ne_none c).symm
    obtain ⟨top', cells', hs', hleads⟩ :=
      postWalk_leads hmalloc h hnodup (stacks_empty hspacious) hvisited []
    obtain rfl := hs'.top_eq_none_iff.mpr rfl
    refine ⟨cells', 2 * t.numNodes, fun fuel hfuel ↦ ?_⟩
    have hrounds := postRounds_le t
    simp only [if_neg hnull]
    rw [List.nil_append] at hleads
    exact (hleads fuel (by omega)).whileLoop_eq
      (postWalkBody_leave cells' fuel (postItems t) (x.or none)) (by omega)

/-! ### Two stacks -/

/-- `pushUnlessNull` puts the root of a tree on one of two stacks, if there is one. -/
theorem Stacks.pushUnlessNull (hmalloc : Allocates malloc)
    (h : Stacks cells top top' stack out) (x : Option ℕ) :
    ∃ next cells', pushUnlessNull malloc cells top x = (next, cells') ∧
      Stacks cells' next top' (x.toList ++ stack) out := by
  cases x with
  | none => exact ⟨top, cells, rfl, h⟩
  | some a =>
    obtain ⟨new, cells', hpush, h'⟩ := h.push hmalloc a
    exact ⟨some new, cells', hpush, h'⟩

/-- A round of the first loop takes a node to the second stack and puts its children on the first. -/
theorem collectBody_node (hmalloc : Allocates malloc)
    (hs : Stacks cells top top' (a :: stack) out) (hcell : nodes a = some ⟨v, l, r⟩) :
    ∃ next next' cells', collectBody malloc nodes ⟨top, top', cells⟩ =
        some (.inl ⟨next, next', cells'⟩) ∧
      Stacks cells' next next' (r.toList ++ (l.toList ++ stack)) (a :: out) := by
  have hne : top ≠ none := fun heq ↦ List.cons_ne_nil _ _ (hs.top_eq_none_iff.mp heq)
  obtain ⟨next₁, cells₁, hpop, hs₁⟩ := hs.pop
  obtain ⟨new, cells₂, hpush, hs₂⟩ := hs₁.symm.push hmalloc a
  obtain ⟨next₃, cells₃, hpushLeft, hs₃⟩ := hs₂.symm.pushUnlessNull hmalloc l
  obtain ⟨next₄, cells₄, hpushRight, hs₄⟩ := hs₃.pushUnlessNull hmalloc r
  refine ⟨next₄, some new, cells₄, ?_, hs₄⟩
  simp only [collectBody, if_pos hne, hpop, hpush, hcell, hpushLeft, hpushRight,
    Option.bind_eq_bind, Option.bind_some, Option.pure_def]

/-- The addresses of a tree in post-order. -/
def postAddresses (t : Entries) : List ℕ := (postorder t).map Prod.fst

/-- The first loop takes a tree from the first stack to the second. -/
theorem collect_leads (hmalloc : Allocates malloc) (h : Rep nodes x t)
    (hs : Stacks cells top top' (x.toList ++ stack) out) :
    ∃ next next' cells', Stacks cells' next next' stack (postAddresses t ++ out) ∧
      Leads (collectBody malloc nodes) t.numNodes ⟨top, top', cells⟩ ⟨next, next', cells'⟩ := by
  induction t generalizing x cells top top' stack out with
  | nil =>
    obtain rfl : x = none := h
    exact ⟨top, top', cells, hs, Leads.refl _⟩
  | node entry left right ihLeft ihRight =>
    obtain ⟨a, v⟩ := entry
    obtain ⟨rfl, l, r, hcell, hleft, hright⟩ := h
    obtain ⟨next₁, next₁', cells₁, hround, hs₁⟩ := collectBody_node hmalloc hs hcell
    obtain ⟨next₂, next₂', cells₂, hs₂, hleads₂⟩ := ihRight hright hs₁
    obtain ⟨next₃, next₃', cells₃, hs₃, hleads₃⟩ := ihLeft hleft hs₂
    refine ⟨next₃, next₃', cells₃, ?_, ?_⟩
    · simpa [postAddresses] using hs₃
    · have hcount : 1 + right.numNodes + left.numNodes = (node (a, v) left right).numNodes := by
        rw [numNodes]
        omega
      exact hcount ▸ ((Leads.single hround).trans hleads₂).trans hleads₃

/-- The second loop prints the items of the second stack. -/
theorem print_leads {entries : List (ℕ × ℤ)}
    (hcells : ∀ e ∈ entries, ∃ cell, nodes e.1 = some cell ∧ cell.item = e.2)
    (hs : Stacks cells top top' stack (entries.map Prod.fst)) (printed : List ℤ) :
    ∃ cells', Leads (printBody nodes) entries.length (⟨top, top', cells⟩, printed)
      (⟨top, none, cells'⟩, printed ++ entries.map Prod.snd) := by
  induction entries generalizing cells top' printed with
  | nil =>
    obtain rfl := hs.symm.top_eq_none_iff.mpr rfl
    refine ⟨cells, ?_⟩
    rw [List.map_nil, List.append_nil]
    exact Leads.refl _
  | cons e entries ih =>
    obtain ⟨a, v⟩ := e
    obtain ⟨⟨cell, hcell, hitem⟩, hrest⟩ := List.forall_mem_cons.mp hcells
    have hne : top' ≠ none := fun heq ↦
      List.cons_ne_nil _ _ (hs.symm.top_eq_none_iff.mp heq)
    obtain ⟨next, cells₁, hpop, hs₁⟩ := hs.symm.pop
    obtain ⟨cells₂, hleads⟩ := ih hrest hs₁.symm (printed ++ [v])
    have hround : printBody nodes (⟨top, top', cells⟩, printed) =
        some (.inl (⟨top, next, cells₁⟩, printed ++ [v])) := by
      simp only [printBody, if_pos hne, hpop, hcell, hitem, Option.bind_eq_bind, Option.bind_some,
        Option.pure_def]
    refine ⟨cells₂, ?_⟩
    rw [List.map_cons, List.length_cons, Nat.add_comm, List.append_cons]
    exact (Leads.single hround).trans hleads

/-- The second loop ends with an empty second stack. -/
theorem printBody_leave (top : Option ℕ) (cells : Store StackNode) (printed : List ℤ) :
    printBody nodes (⟨top, none, cells⟩, printed) = some (.inr (printed, cells)) := by
  unfold printBody
  exact if_neg fun hcond ↦ hcond rfl

/-- `postOrderIterativeS2` prints the items of a tree in post-order. -/
theorem postOrderIterativeS2_returns (hmalloc : Allocates malloc) (hspacious : Spacious cells)
    (h : Rep nodes x t) : ∃ cells',
      Returns (fun fuel ↦ postOrderIterativeS2 malloc nodes fuel cells x) (postItems t, cells') := by
  unfold postOrderIterativeS2
  by_cases hnull : x = none
  · obtain rfl := h.eq_none_iff.mp hnull
    exact ⟨cells, 0, fun fuel _ ↦ if_pos hnull⟩
  · obtain ⟨a, rfl⟩ := Option.ne_none_iff_exists'.mp hnull
    obtain ⟨new, cells₁, hpush, hs₁⟩ := (stacks_empty hspacious).push hmalloc a
    obtain ⟨top₂, top₂', cells₂, hs₂, hleads₂⟩ := collect_leads hmalloc h hs₁
    obtain rfl := hs₂.top_eq_none_iff.mpr rfl
    have hcells : ∀ e ∈ postorder t, ∃ cell, nodes e.1 = some cell ∧ cell.item = e.2 := fun e he ↦
      h.allocated ((perm_postorder t).mem_iff.mp he)
    rw [List.append_nil] at hs₂
    obtain ⟨cells₃, hleads₃⟩ := print_leads hcells hs₂ []
    have hlength : (postorder t).length = t.numNodes := by
      rw [(perm_postorder t).length_eq, length_inorder]
    refine ⟨cells₃, t.numNodes, fun fuel hfuel ↦ ?_⟩
    have hcollect : whileLoop (collectBody malloc nodes) fuel ⟨some new, none, cells₁⟩ =
        some ⟨none, top₂', cells₂⟩ := hleads₂.whileLoop_eq (if_neg fun hcond ↦ hcond rfl) hfuel
    have hprint : whileLoop (printBody nodes) fuel (⟨none, top₂', cells₂⟩, []) =
        some (postItems t, cells₃) :=
      hleads₃.whileLoop_eq (printBody_leave none cells₃ (postItems t)) (hlength ▸ hfuel)
    simp only [if_neg hnull, hpush, hcollect, hprint, Option.bind_eq_bind, Option.bind_some]

/-! ### The iterative traversals and the recursive orders -/

/-- The iterative traversals of a tree print what the recursive ones do: the items in order, and
twice the items in post-order. -/
theorem traversals_return (hmalloc : Allocates malloc) (hspacious : Spacious cells)
    (h : Rep nodes x t) (hnodup : (addresses t).Nodup) :
    (∃ cells', Returns (fun fuel ↦ inOrderIterative malloc nodes fuel cells x)
      (items t, cells')) ∧
    (∃ cells', Returns (fun fuel ↦ postOrderIterativeS1 malloc nodes fuel cells x)
      (postItems t, cells')) ∧
    ∃ cells', Returns (fun fuel ↦ postOrderIterativeS2 malloc nodes fuel cells x)
      (postItems t, cells') :=
  ⟨inOrderIterative_returns hmalloc hspacious h,
    postOrderIterativeS1_returns hmalloc hspacious h hnodup,
    postOrderIterativeS2_returns hmalloc hspacious h⟩

/-- The item 3 with the items 3 and 5 as its children. -/
def repeated : Store BSTNode :=
  ((Store.empty.put 1 ⟨3, some 2, some 3⟩).put 2 ⟨3, none, none⟩).put 3 ⟨5, none, none⟩

theorem rep_repeated : Rep repeated (some 1)
    (node (1, 3) (node (2, 3) nil nil) (node (3, 5) nil nil)) :=
  ⟨rfl, some 2, some 3, rfl, ⟨rfl, none, none, rfl, rfl, rfl⟩, rfl, none, none, rfl, rfl, rfl⟩

/-- A tree with a repeated item. -/
theorem traversals_return_repeated :
    (∃ cells', Returns (fun fuel ↦ inOrderIterative firstFree repeated fuel Store.empty (some 1))
      ([3, 3, 5], cells')) ∧
    (∃ cells', Returns (fun fuel ↦ postOrderIterativeS1 firstFree repeated fuel Store.empty (some 1))
      ([3, 5, 3], cells')) ∧
    ∃ cells', Returns (fun fuel ↦ postOrderIterativeS2 firstFree repeated fuel Store.empty (some 1))
      ([3, 5, 3], cells') :=
  traversals_return allocates_firstFree spacious_empty rep_repeated (by decide)

end Jungle.SearchTrees
