import Jungle.Lib.Allocator
import Jungle.Lib.Segment
import Jungle.Lib.TreeOrders
import Jungle.SearchTrees.Refinement

/-!
# The iterative traversals

The stack of tree nodes of `Data-Structures/tests/binary_search_tree.c` and the traversals that use
it. A `Stack` is its pointer `top`, and the store holds the `StackNode` cells of all stacks. `malloc`
is a function of that store. A traversal returns what it prints and the store. The sections below the
definitions say what the operations do to one of two stacks without a common cell (`Stacks`).
-/

set_option autoImplicit false
set_option relaxedAutoImplicit false

namespace Jungle.SearchTrees

open Jungle.Lib

/-- `StackNode` -/
structure StackNode where
  data : Option ℕ
  next : Option ℕ
deriving DecidableEq, Repr

/-- `push(stack, node)`: the pointer `top` and the store. -/
def push (malloc : Store StackNode → Option ℕ) (cells : Store StackNode) (top node : Option ℕ) :
    Option ℕ × Store StackNode :=
  match malloc cells with
  | none => (top, cells)
  | some temp => (some temp, cells.put temp ⟨node, top⟩)

/-- `pop(s)`: the node, the pointer `top` and the store. -/
def pop (cells : Store StackNode) (top : Option ℕ) :
    Option (Option ℕ × Option ℕ × Store StackNode) :=
  match top with
  | none => some (none, none, cells)
  | some t => do
    let cell ← cells t
    return (cell.data, cell.next, cells.free t)

/-- `peek(s)` -/
def peek (cells : Store StackNode) (top : Option ℕ) : Option (Option ℕ) :=
  match top with
  | none => some none
  | some temp => do
    let cell ← cells temp
    return cell.data

/-- The state of the walk down the left children: `cur`, `top` and the store. -/
abbrev Descent := Option ℕ × Option ℕ × Store StackNode

/-- One round of `while (cur != NULL) { push(&s, cur); cur = cur->left; }`. -/
def pushLeftBody (malloc : Store StackNode → Option ℕ) (nodes : Store BSTNode) :
    Descent → Option (Descent ⊕ (Option ℕ × Store StackNode))
  | (none, top, cells) => some (.inr (top, cells))
  | (some cur, top, cells) => do
    let (top, cells) := push malloc cells top (some cur)
    let node ← nodes cur
    return .inl (node.left, top, cells)

/-! ### `inOrderIterative` and `preOrderIterative` -/

/-- The state of a traversal with one stack. -/
structure Walk where
  cur : Option ℕ
  top : Option ℕ
  cells : Store StackNode
  printed : List ℤ

/-- One round of the loop of `inOrderIterative` and `preOrderIterative`. -/
def walkBody (malloc : Store StackNode → Option ℕ) (nodes : Store BSTNode) (fuel : ℕ) (w : Walk) :
    Option (Walk ⊕ (List ℤ × Store StackNode)) :=
  if w.cur ≠ none ∨ w.top ≠ none then do
    let (top, cells) ← whileLoop (pushLeftBody malloc nodes) fuel (w.cur, w.top, w.cells)
    let (popped, top, cells) ← pop cells top
    let node ← nodes (← popped)
    return .inl ⟨node.right, top, cells, w.printed ++ [node.item]⟩
  else some (.inr (w.printed, w.cells))

/-- `inOrderIterative(root)`: what it prints, and the store. -/
def inOrderIterative (malloc : Store StackNode → Option ℕ) (nodes : Store BSTNode) (fuel : ℕ)
    (cells : Store StackNode) (root : Option ℕ) : Option (List ℤ × Store StackNode) :=
  if root = none then some ([], cells)
  else whileLoop (walkBody malloc nodes fuel) fuel ⟨root, none, cells, []⟩

/-- `preOrderIterative(root)`, whose body is that of `inOrderIterative`. -/
def preOrderIterative (malloc : Store StackNode → Option ℕ) (nodes : Store BSTNode) (fuel : ℕ)
    (cells : Store StackNode) (root : Option ℕ) : Option (List ℤ × Store StackNode) :=
  if root = none then some ([], cells)
  else whileLoop (walkBody malloc nodes fuel) fuel ⟨root, none, cells, []⟩

/-! ### `postOrderIterativeS1` -/

/-- The state of the loop of `postOrderIterativeS1`. -/
structure PostWalk extends Walk where
  lastVisited : Option ℕ

/-- One round of the loop of `postOrderIterativeS1`. -/
def postWalkBody (malloc : Store StackNode → Option ℕ) (nodes : Store BSTNode) (fuel : ℕ)
    (w : PostWalk) : Option (PostWalk ⊕ (List ℤ × Store StackNode)) :=
  if w.cur ≠ none ∨ w.top ≠ none then do
    let (top, cells) ← whileLoop (pushLeftBody malloc nodes) fuel (w.cur, w.top, w.cells)
    let p ← nodes (← (← peek cells top))
    if p.right ≠ none ∧ w.lastVisited ≠ p.right then
      return .inl ⟨⟨p.right, top, cells, w.printed⟩, w.lastVisited⟩
    else
      let (popped, top, cells) ← pop cells top
      let node ← nodes (← popped)
      return .inl ⟨⟨none, top, cells, w.printed ++ [node.item]⟩, popped⟩
  else some (.inr (w.printed, w.cells))

/-- `postOrderIterativeS1(root)`: what it prints, and the store. -/
def postOrderIterativeS1 (malloc : Store StackNode → Option ℕ) (nodes : Store BSTNode) (fuel : ℕ)
    (cells : Store StackNode) (root : Option ℕ) : Option (List ℤ × Store StackNode) :=
  if root = none then some ([], cells)
  else whileLoop (postWalkBody malloc nodes fuel) fuel ⟨⟨root, none, cells, []⟩, none⟩

/-! ### `postOrderIterativeS2` -/

/-- The two stacks of `postOrderIterativeS2` and the store. -/
structure TwoStacks where
  top₁ : Option ℕ
  top₂ : Option ℕ
  cells : Store StackNode

/-- `if (node != NULL) push(stack, node)` -/
def pushUnlessNull (malloc : Store StackNode → Option ℕ) (cells : Store StackNode)
    (top node : Option ℕ) : Option ℕ × Store StackNode :=
  if node ≠ none then push malloc cells top node else (top, cells)

/-- One round of the first loop of `postOrderIterativeS2`. -/
def collectBody (malloc : Store StackNode → Option ℕ) (nodes : Store BSTNode) (s : TwoStacks) :
    Option (TwoStacks ⊕ TwoStacks) :=
  if s.top₁ ≠ none then do
    let (popped, top₁, cells) ← pop s.cells s.top₁
    let (top₂, cells) := push malloc cells s.top₂ popped
    let node ← nodes (← popped)
    let (top₁, cells) := pushUnlessNull malloc cells top₁ node.left
    let (top₁, cells) := pushUnlessNull malloc cells top₁ node.right
    return .inl ⟨top₁, top₂, cells⟩
  else some (.inr s)

/-- One round of the second loop of `postOrderIterativeS2`. -/
def printBody (nodes : Store BSTNode) :
    TwoStacks × List ℤ → Option ((TwoStacks × List ℤ) ⊕ (List ℤ × Store StackNode))
  | (s, printed) =>
    if s.top₂ ≠ none then do
      let (popped, top₂, cells) ← pop s.cells s.top₂
      let node ← nodes (← popped)
      return .inl (⟨s.top₁, top₂, cells⟩, printed ++ [node.item])
    else some (.inr (printed, s.cells))

/-- `postOrderIterativeS2(root)`: what it prints, and the store. -/
def postOrderIterativeS2 (malloc : Store StackNode → Option ℕ) (nodes : Store BSTNode) (fuel : ℕ)
    (cells : Store StackNode) (root : Option ℕ) : Option (List ℤ × Store StackNode) :=
  if root = none then some ([], cells)
  else do
    let (top₁, cells) := push malloc cells none root
    let s ← whileLoop (collectBody malloc nodes) fuel ⟨top₁, none, cells⟩
    whileLoop (printBody nodes) fuel (s, [])

/-! ### Two stacks -/

/-- Two pointers lead through two stacks of nodes without a common cell, and there is room for more
cells. -/
def Stacks (cells : Store StackNode) (top top' : Option ℕ) (nodes nodes' : List ℕ) : Prop :=
  Spacious cells ∧ ∃ entries entries' : List (ℕ × Option ℕ),
    Segment StackNode.data StackNode.next cells top entries none ∧
    Segment StackNode.data StackNode.next cells top' entries' none ∧
    (∀ e ∈ entries, ∀ e' ∈ entries', e.1 ≠ e'.1) ∧
    entries.map Prod.snd = nodes.map some ∧ entries'.map Prod.snd = nodes'.map some

variable {malloc : Store StackNode → Option ℕ} {cells : Store StackNode} {top top' : Option ℕ}
  {stack stack' : List ℕ} {a : ℕ}

theorem Stacks.symm (h : Stacks cells top top' stack stack') :
    Stacks cells top' top stack' stack := by
  obtain ⟨hspacious, entries, entries', hchain, hchain', hapart, hnodes, hnodes'⟩ := h
  exact ⟨hspacious, entries', entries, hchain', hchain,
    fun e he e' he' ↦ (hapart e' he' e he).symm, hnodes', hnodes⟩

/-- The pointer of a stack is null if and only if it is empty. -/
theorem Stacks.top_eq_none_iff (h : Stacks cells top top' stack stack') :
    top = none ↔ stack = [] := by
  obtain ⟨-, entries, -, hchain, -, -, hnodes, -⟩ := h
  rw [hchain.head_eq, List.head?_eq_none_iff, List.map_eq_nil_iff,
    ← List.map_eq_nil_iff (f := Prod.snd), hnodes, List.map_eq_nil_iff]

/-- Stacks at the start: one or both are empty. -/
theorem stacks_empty (h : Spacious cells) : Stacks cells none none [] [] :=
  ⟨h, [], [], rfl, rfl, fun _ he ↦ absurd he List.not_mem_nil, rfl, rfl⟩

/-- `push` puts a node on one of two stacks. -/
theorem Stacks.push (hmalloc : Allocates malloc) (h : Stacks cells top top' stack stack') (a : ℕ) :
    ∃ new cells', push malloc cells top (some a) = (some new, cells') ∧
      Stacks cells' (some new) top' (a :: stack) stack' := by
  obtain ⟨hspacious, entries, entries', hchain, hchain', hapart, hnodes, hnodes'⟩ := h
  obtain ⟨new, hnew, hfree⟩ := hspacious.exists_malloc hmalloc
  have hfresh : ∀ {x : Option ℕ} {es : List (ℕ × Option ℕ)},
      Segment StackNode.data StackNode.next cells x es none → ∀ e ∈ es, e.1 ≠ new := by
    intro x es hsegment e he heq
    obtain ⟨cell, hcell, -⟩ := hsegment.allocated he
    rw [heq, hfree] at hcell
    exact Option.some_ne_none cell hcell.symm
  have hkeep : ∀ {x : Option ℕ} {es : List (ℕ × Option ℕ)},
      Segment StackNode.data StackNode.next cells x es none →
        Segment StackNode.data StackNode.next (cells.put new ⟨some a, top⟩) x es none :=
    fun hsegment ↦ hsegment.frame fun e he ↦ Store.put_of_ne _ (hfresh hsegment e he) _
  refine ⟨new, cells.put new ⟨some a, top⟩, by rw [SearchTrees.push, hnew],
    hspacious.put new _, (new, some a) :: entries, entries',
    ⟨rfl, _, Store.put_self .., rfl, hkeep hchain⟩, hkeep hchain',
    List.forall_mem_cons.mpr ⟨fun e' he' ↦ (hfresh hchain' e' he').symm, hapart⟩, ?_, hnodes'⟩
  rw [List.map_cons, List.map_cons, hnodes]

/-- `pop` takes a node off one of two stacks. -/
theorem Stacks.pop (h : Stacks cells top top' (a :: stack) stack') :
    ∃ next cells', pop cells top = some (some a, next, cells') ∧
      Stacks cells' next top' stack stack' := by
  obtain ⟨hspacious, entries, entries', hchain, hchain', hapart, hnodes, hnodes'⟩ := h
  cases entries with
  | nil => exact absurd hnodes.symm (List.cons_ne_nil _ _)
  | cons e entries =>
    obtain ⟨t, data⟩ := e
    obtain ⟨rfl, hrestNodes⟩ := List.cons_eq_cons.mp hnodes
    have hnodup := hchain.nodup
    rw [List.map_cons, List.nodup_cons] at hnodup
    obtain ⟨rfl, cell, hcell, hdata, hrest⟩ := hchain
    refine ⟨cell.next, cells.free t, ?_, hspacious.free t, entries, entries', ?_, ?_,
      fun e he ↦ hapart e (List.mem_cons_of_mem _ he), hrestNodes, hnodes'⟩
    · simp only [SearchTrees.pop, hcell, hdata, Option.bind_eq_bind, Option.bind_some,
        Option.pure_def]
    · refine hrest.frame fun e he ↦ Store.free_of_ne _ fun heq ↦ ?_
      have hmem : e.1 ∈ entries.map Prod.fst := List.mem_map_of_mem he
      exact hnodup.1 (heq ▸ hmem)
    · exact hchain'.frame fun e he ↦ Store.free_of_ne _ fun heq ↦
        hapart _ List.mem_cons_self e he heq.symm

/-- `peek` reads the first node. -/
theorem Stacks.peek_eq (h : Stacks cells top top' (a :: stack) stack') :
    peek cells top = some (some a) := by
  obtain ⟨-, entries, -, hchain, -, -, hnodes, -⟩ := h
  cases entries with
  | nil => exact absurd hnodes.symm (List.cons_ne_nil _ _)
  | cons e entries =>
    obtain ⟨t, data⟩ := e
    obtain ⟨rfl, -⟩ := List.cons_eq_cons.mp hnodes
    obtain ⟨rfl, cell, hcell, hdata, -⟩ := hchain
    simp only [peek, hcell, hdata, Option.bind_eq_bind, Option.bind_some, Option.pure_def]

end Jungle.SearchTrees
