import Jungle.Lib.Allocator
import Jungle.Lib.MachineInt
import Jungle.Lib.Segment
import Jungle.Lib.TreeOrders
import Jungle.SearchTrees.Refinement

/-!
# The level-order traversal

The queue of `Data-Structures/tests/binary_search_tree.c` and `levelOrderTraversal`, whose rounds each
take the nodes of one level off the queue and put the next level on it (`levelRound_next`). The number
of rounds on a level is an `int`, so that the traversal never ends at a level with more than `INT_MAX`
nodes (`levelOrderTraversal_iff`). A call of `dequeue` on an empty queue faults; a traversal that
returns has made none.
-/

set_option autoImplicit false
set_option relaxedAutoImplicit false

namespace Jungle.SearchTrees

open BinaryTree Jungle.Lib

/-- `QueueNode` -/
structure QueueNode where
  data : Option ℕ
  nextPtr : Option ℕ
deriving DecidableEq, Repr

/-- `Queue` -/
structure Queue where
  head : Option ℕ
  tail : Option ℕ
deriving DecidableEq, Repr

/-- `isEmpty(head)` -/
def isEmpty (head : Option ℕ) : Bool := head.isNone

/-- `enqueue(&q.head, &q.tail, node)` -/
def enqueue (malloc : Store QueueNode → Option ℕ) (cells : Store QueueNode) (q : Queue)
    (node : Option ℕ) : Option (Queue × Store QueueNode) :=
  match malloc cells with
  | none => some (q, cells)
  | some newPtr =>
    let cells := cells.put newPtr ⟨node, none⟩
    if isEmpty q.head then some (⟨some newPtr, some newPtr⟩, cells)
    else do
      let tail ← q.tail
      let last ← cells tail
      return (⟨q.head, some newPtr⟩, cells.put tail { last with nextPtr := some newPtr })

/-- `dequeue(&q.head, &q.tail)` -/
def dequeue (cells : Store QueueNode) (q : Queue) :
    Option (Option ℕ × Queue × Store QueueNode) := do
  let tempPtr ← q.head
  let first ← cells tempPtr
  let tail := if first.nextPtr = none then none else q.tail
  return (first.data, ⟨first.nextPtr, tail⟩, cells.free tempPtr)

/-- One round of the loop of `findLengthQueue`. -/
def lengthBody (cells : Store QueueNode) :
    Option ℕ × ℤ → Option ((Option ℕ × ℤ) ⊕ ℤ)
  | (none, size) => some (.inr size)
  | (some a, size) => do
    let node ← cells a
    return .inl (node.nextPtr, int32 (size + 1))

/-- `findLengthQueue(&q)` -/
def findLengthQueue (cells : Store QueueNode) (fuel : ℕ) (q : Queue) : Option ℤ :=
  if isEmpty q.head then some 0 else whileLoop (lengthBody cells) fuel (q.head, 0)

/-- The state of `levelOrderTraversal`. -/
structure Levels where
  q : Queue
  cells : Store QueueNode
  printed : List ℤ

/-- `if (node != NULL) enqueue(&q.head, &q.tail, node)` -/
def enqueueUnlessNull (malloc : Store QueueNode → Option ℕ) (cells : Store QueueNode) (q : Queue)
    (node : Option ℕ) : Option (Queue × Store QueueNode) :=
  if node ≠ none then enqueue malloc cells q node else some (q, cells)

/-- One round of `for (int i = 0; i < size; i++)`. -/
def drainBody (malloc : Store QueueNode → Option ℕ) (nodes : Store BSTNode) (size : ℤ) :
    ℤ × Levels → Option ((ℤ × Levels) ⊕ Levels)
  | (i, s) =>
    if i < size then do
      let (popped, q, cells) ← dequeue s.cells s.q
      let node ← nodes (← popped)
      let (q, cells) ← enqueueUnlessNull malloc cells q node.left
      let (q, cells) ← enqueueUnlessNull malloc cells q node.right
      return .inl (i + 1, ⟨q, cells, s.printed ++ [node.item]⟩)
    else some (.inr s)

/-- One round of `while (isEmpty(q.head) != 1)`. -/
def levelRound (malloc : Store QueueNode → Option ℕ) (nodes : Store BSTNode) (fuel : ℕ)
    (s : Levels) : Option (Levels ⊕ (List ℤ × Store QueueNode)) :=
  if isEmpty s.q.head ≠ true then do
    let size ← findLengthQueue s.cells fuel s.q
    let s ← whileLoop (drainBody malloc nodes size) fuel (0, s)
    return .inl s
  else some (.inr (s.printed, s.cells))

/-- `levelOrderTraversal(root)`: what it prints, and the store. -/
def levelOrderTraversal (malloc : Store QueueNode → Option ℕ) (nodes : Store BSTNode) (fuel : ℕ)
    (cells : Store QueueNode) (root : Option ℕ) : Option (List ℤ × Store QueueNode) :=
  if root = none then some ([], cells)
  else do
    let (q, cells) ← enqueue malloc cells ⟨none, none⟩ root
    whileLoop (levelRound malloc nodes fuel) fuel ⟨q, cells, []⟩

/-! ### The queue -/

/-- The queue holds the nodes, and there is room for more cells. -/
def Queued (cells : Store QueueNode) (q : Queue) (queue : List ℕ) : Prop :=
  Spacious cells ∧ ∃ entries : List (ℕ × Option ℕ),
    Segment QueueNode.data QueueNode.nextPtr cells q.head entries none ∧
    q.tail = entries.getLast?.map Prod.fst ∧ entries.map Prod.snd = queue.map some

variable {malloc : Store QueueNode → Option ℕ} {nodes : Store BSTNode} {cells : Store QueueNode}
  {q : Queue} {queue : List ℕ} {x : Option ℕ} {a fuel : ℕ} {t : Entries}

theorem queued_nil (h : Spacious cells) : Queued cells ⟨none, none⟩ [] :=
  ⟨h, [], rfl, rfl, rfl⟩

/-- The queue is empty if and only if it holds no node. -/
theorem Queued.isEmpty_iff (h : Queued cells q queue) : isEmpty q.head = true ↔ queue = [] := by
  obtain ⟨-, entries, hchain, -, hnodes⟩ := h
  rw [isEmpty, Option.isNone_iff_eq_none, hchain.head_eq, List.head?_eq_none_iff, List.map_eq_nil_iff,
    ← List.map_eq_nil_iff (f := Prod.snd), hnodes, List.map_eq_nil_iff]

/-- `dequeue` takes the first node off the queue. -/
theorem Queued.dequeue (h : Queued cells q (a :: queue)) :
    ∃ q' cells', dequeue cells q = some (some a, q', cells') ∧ Queued cells' q' queue := by
  obtain ⟨hspacious, entries, hchain, htail, hnodes⟩ := h
  cases entries with
  | nil => exact absurd hnodes.symm (List.cons_ne_nil _ _)
  | cons e entries =>
    obtain ⟨first, data⟩ := e
    obtain ⟨rfl, hrestNodes⟩ := List.cons_eq_cons.mp hnodes
    have hnodup := hchain.nodup
    rw [List.map_cons, List.nodup_cons] at hnodup
    obtain ⟨hhead, cell, hcell, hdata, hrest⟩ := hchain
    refine ⟨⟨cell.nextPtr, if cell.nextPtr = none then none else q.tail⟩, cells.free first, ?_,
      hspacious.free first, entries, ?_, ?_, hrestNodes⟩
    · simp only [SearchTrees.dequeue, hhead, hcell, hdata, Option.bind_eq_bind, Option.bind_some,
        Option.pure_def]
    · refine hrest.frame fun e he ↦ Store.free_of_ne _ fun heq ↦ ?_
      have hmem : e.1 ∈ entries.map Prod.fst := List.mem_map_of_mem he
      exact hnodup.1 (heq ▸ hmem)
    · rw [hrest.head_eq, htail]
      cases entries with
      | nil => rfl
      | cons e entries => simp

/-- `enqueue` puts a node at the end of the queue. -/
theorem Queued.enqueue (hmalloc : Allocates malloc) (h : Queued cells q queue) (a : ℕ) :
    ∃ q' cells', enqueue malloc cells q (some a) = some (q', cells') ∧
      Queued cells' q' (queue ++ [a]) := by
  obtain ⟨hspacious, entries, hchain, htail, hnodes⟩ := h
  obtain ⟨new, hnew, hfree⟩ := hspacious.exists_malloc hmalloc
  rcases List.eq_nil_or_concat entries with rfl | ⟨front, ⟨last, data⟩, rfl⟩
  · obtain rfl := List.map_eq_nil_iff.mp hnodes.symm
    have hempty : isEmpty q.head = true := congrArg Option.isNone hchain
    refine ⟨⟨some new, some new⟩, cells.put new ⟨some a, none⟩, ?_, hspacious.put new _,
      [(new, some a)], ⟨rfl, _, Store.put_self .., rfl, rfl⟩, rfl, rfl⟩
    simp only [SearchTrees.enqueue, hnew, if_pos hempty]
  · rw [List.concat_eq_append] at hchain htail hnodes
    have hhead : ¬isEmpty q.head = true := by
      rw [hchain.head_eq]
      cases front <;> simp [isEmpty]
    obtain ⟨cell, hcell, hdata, hnext⟩ := hchain.exists_cell
    have htail' : q.tail = some last := by simpa using htail
    have hne : last ≠ new := fun heq ↦
      Option.some_ne_none cell (hcell.symm.trans ((congrArg cells heq).trans hfree))
    have hcell' : cells.put new ⟨some a, none⟩ last = some cell :=
      (Store.put_of_ne _ hne _).trans hcell
    refine ⟨⟨q.head, some new⟩,
      (cells.put new ⟨some a, none⟩).put last { cell with nextPtr := some new }, ?_,
      (hspacious.put new _).put last _, front ++ [(last, data), (new, some a)], ?_, ?_, ?_⟩
    · simp only [SearchTrees.enqueue, hnew, if_neg hhead, htail', hcell', Option.bind_eq_bind,
        Option.bind_some, Option.pure_def]
    · exact hchain.insert hcell hfree hdata rfl rfl hnext.symm
    · simp
    · simp only [List.map_append, List.map_cons, List.map_nil] at hnodes ⊢
      rw [← hnodes]
      simp

/-- `enqueueUnlessNull` puts the node that a pointer leads to at the end of the queue. -/
theorem Queued.enqueueUnlessNull (hmalloc : Allocates malloc) (h : Queued cells q queue)
    (x : Option ℕ) : ∃ q' cells', enqueueUnlessNull malloc cells q x = some (q', cells') ∧
      Queued cells' q' (queue ++ x.toList) := by
  cases x with
  | none => exact ⟨q, cells, rfl, by rwa [Option.toList_none, List.append_nil]⟩
  | some a =>
    obtain ⟨q', cells', henqueue, h'⟩ := h.enqueue hmalloc a
    exact ⟨q', cells', henqueue, h'⟩

/-- The loop of `findLengthQueue` counts the nodes in an `int`. -/
theorem lengthBody_returns {entries : List (ℕ × Option ℕ)}
    (h : Segment QueueNode.data QueueNode.nextPtr cells x entries none) (size : ℤ)
    (hfuel : entries.length < fuel) : whileLoop (lengthBody cells) fuel (x, int32 size) =
      some (int32 (size + entries.length)) := by
  induction entries generalizing x size fuel with
  | nil =>
    obtain rfl : x = none := h
    obtain ⟨fuel, rfl⟩ : ∃ n, fuel = n + 1 := ⟨fuel - 1, by omega⟩
    rw [List.length_nil, Int.natCast_zero, Int.add_zero]
    exact whileLoop_leave rfl fuel
  | cons e entries ih =>
    obtain ⟨b, data⟩ := e
    obtain ⟨rfl, cell, hcell, -, hrest⟩ := h
    obtain ⟨fuel, rfl⟩ : ∃ n, fuel = n + 1 := ⟨fuel - 1, by omega⟩
    rw [List.length_cons] at hfuel ⊢
    have hround : lengthBody cells (some b, int32 size) =
        some (.inl (cell.nextPtr, int32 (size + 1))) := by
      simp only [lengthBody, hcell, Option.bind_eq_bind, Option.bind_some, Option.pure_def,
        int32_int32_add]
    rw [whileLoop_continue hround, ih hrest (size + 1) (by omega), Int.natCast_add_one, Int.add_assoc,
      Int.add_comm 1]

/-- `findLengthQueue` counts the nodes of the queue in an `int`. -/
theorem Queued.findLengthQueue (h : Queued cells q queue) (hfuel : queue.length < fuel) :
    findLengthQueue cells fuel q = some (int32 queue.length) := by
  unfold SearchTrees.findLengthQueue
  by_cases hempty : isEmpty q.head = true
  · rw [if_pos hempty, h.isEmpty_iff.mp hempty]
    rfl
  · obtain ⟨-, entries, hchain, -, hnodes⟩ := h
    have hlength : entries.length = queue.length := by
      simpa only [List.length_map] using congrArg List.length hnodes
    have hcount := lengthBody_returns hchain 0 (hlength ▸ hfuel)
    rw [Int.zero_add, hlength] at hcount
    rw [if_neg hempty]
    exact hcount

/-! ### A level -/

/-- The addresses of the children of a node. -/
def children (nodes : Store BSTNode) (a : ℕ) : List ℕ :=
  match nodes a with
  | none => []
  | some n => n.left.toList ++ n.right.toList

/-- A round of the inner loop prints a node and puts its children on the queue. -/
theorem drainBody_node (hmalloc : Allocates malloc) (h : Queued cells q (a :: queue))
    {cell : BSTNode} (hcell : nodes a = some cell) : ∃ q' cells',
      Queued cells' q' (queue ++ children nodes a) ∧ ∀ i size : ℤ, i < size → ∀ printed,
        drainBody malloc nodes size (i, ⟨q, cells, printed⟩) =
          some (.inl (i + 1, ⟨q', cells', printed ++ [cell.item]⟩)) := by
  obtain ⟨q₁, cells₁, hdequeue, h₁⟩ := h.dequeue
  obtain ⟨q₂, cells₂, hleft, h₂⟩ := h₁.enqueueUnlessNull hmalloc cell.left
  obtain ⟨q₃, cells₃, hright, h₃⟩ := h₂.enqueueUnlessNull hmalloc cell.right
  refine ⟨q₃, cells₃, ?_, fun i size hlt printed ↦ ?_⟩
  · rw [children, hcell]
    dsimp only
    rwa [← List.append_assoc]
  · simp only [drainBody, if_pos hlt, hdequeue, hcell, hleft, hright, Option.bind_eq_bind,
      Option.bind_some, Option.pure_def]

/-- The inner loop ends after so many rounds. -/
theorem drainBody_leave {i size : ℤ} (h : ¬i < size) (s : Levels) :
    drainBody malloc nodes size (i, s) = some (.inr s) := by
  unfold drainBody
  exact if_neg h

/-- The inner loop prints the nodes at the front of the queue and puts their children at its end. -/
theorem drain_leads (hmalloc : Allocates malloc) {entries : List (ℕ × ℤ)}
    (hcells : ∀ e ∈ entries, ∃ cell, nodes e.1 = some cell ∧ cell.item = e.2)
    (h : Queued cells q (entries.map Prod.fst ++ queue)) : ∃ q' cells',
      Queued cells' q' (queue ++ (entries.map Prod.fst).flatMap (children nodes)) ∧
      ∀ i size : ℤ, i + entries.length ≤ size → ∀ printed,
        Leads (drainBody malloc nodes size) entries.length (i, ⟨q, cells, printed⟩)
          (i + entries.length, ⟨q', cells', printed ++ entries.map Prod.snd⟩) := by
  induction entries generalizing q cells queue with
  | nil =>
    refine ⟨q, cells, by simpa using h, fun i size _ printed ↦ ?_⟩
    rw [List.map_nil, List.append_nil, List.length_nil, Int.natCast_zero, Int.add_zero]
    exact Leads.refl _
  | cons e entries ih =>
    obtain ⟨a, v⟩ := e
    obtain ⟨⟨cell, hcell, rfl⟩, hrest⟩ := List.forall_mem_cons.mp hcells
    rw [List.map_cons, List.cons_append] at h
    obtain ⟨q₁, cells₁, h₁, hround⟩ := drainBody_node hmalloc h hcell
    rw [List.append_assoc] at h₁
    obtain ⟨q₂, cells₂, h₂, hleads⟩ := ih hrest h₁
    refine ⟨q₂, cells₂, ?_, fun i size hsize printed ↦ ?_⟩
    · rwa [List.map_cons, List.flatMap_cons, ← List.append_assoc]
    · rw [List.length_cons, Int.natCast_add_one] at hsize ⊢
      have hfirst := Leads.single (hround i size (by omega) printed)
      have hothers := hleads (i + 1) size (by omega) (printed ++ [cell.item])
      rw [List.append_assoc, Int.add_right_comm, Int.add_assoc] at hothers
      rw [Nat.add_comm]
      exact hfirst.trans hothers

/-- The first level of a tree is its root. -/
theorem map_level_zero (h : Rep nodes x t) : (level 0 t).map Prod.fst = x.toList := by
  cases t with
  | nil =>
    obtain rfl : x = none := h
    rfl
  | node entry left right =>
    obtain rfl := h.1
    rfl

/-- The children of the nodes of a level are the next level. -/
theorem flatMap_children_level (h : Rep nodes x t) (d : ℕ) :
    ((level d t).map Prod.fst).flatMap (children nodes) = (level (d + 1) t).map Prod.fst := by
  induction t generalizing x d with
  | nil => simp
  | node entry left right ihLeft ihRight =>
    obtain ⟨a, v⟩ := entry
    obtain ⟨-, l, r, hcell, hleft, hright⟩ := h
    cases d with
    | zero =>
      rw [level_succ, List.map_append, map_level_zero hleft, map_level_zero hright]
      simp [children, hcell]
    | succ d =>
      rw [level_succ, level_succ, List.map_append, List.map_append, List.flatMap_append,
        ihLeft hleft d, ihRight hright d]

/-- A round on a level prints it and leaves the next level on the queue. -/
theorem levelRound_next (hmalloc : Allocates malloc) (h : Rep nodes x t) {d : ℕ}
    (hlevel : d < t.height) (hfits : ((level d t).length : ℤ) ≤ intMax)
    (hqueue : Queued cells q ((level d t).map Prod.fst)) : ∃ q' cells',
      Queued cells' q' ((level (d + 1) t).map Prod.fst) ∧ ∀ fuel, t.numNodes < fuel → ∀ printed,
        levelRound malloc nodes fuel ⟨q, cells, printed⟩ =
          some (.inl ⟨q', cells', printed ++ (level d t).map Prod.snd⟩) := by
  have hcells : ∀ e ∈ level d t, ∃ cell, nodes e.1 = some cell ∧ cell.item = e.2 :=
    fun e he ↦ h.allocated (mem_inorder_of_mem_level he)
  have hempty : isEmpty q.head ≠ true := by
    rw [ne_eq, hqueue.isEmpty_iff, List.map_eq_nil_iff, level_eq_nil_iff]
    omega
  rw [← List.append_nil ((level d t).map Prod.fst)] at hqueue
  obtain ⟨q', cells', h', hleads⟩ := drain_leads hmalloc hcells hqueue
  rw [List.append_nil] at hqueue
  rw [List.nil_append, flatMap_children_level h] at h'
  refine ⟨q', cells', h', fun fuel hfuel printed ↦ ?_⟩
  have hbound := length_level_le d t
  have hsize : findLengthQueue cells fuel q = some ((level d t).length : ℤ) := by
    rw [hqueue.findLengthQueue (by rw [List.length_map]; omega), List.length_map,
      int32_of_mem (by unfold intMin; omega) hfits]
  have hdrain : whileLoop (drainBody malloc nodes (level d t).length) fuel
      (0, ⟨q, cells, printed⟩) = some ⟨q', cells', printed ++ (level d t).map Prod.snd⟩ := by
    exact (hleads 0 _ (by omega) printed).whileLoop_eq (drainBody_leave (by omega) _) (by omega)
  simp only [levelRound, if_pos hempty, hsize, hdrain, Option.bind_eq_bind, Option.bind_some,
    Option.pure_def]

/-! ### All levels -/

/-- The items of the levels above a depth. -/
def itemsAbove (d : ℕ) (t : Entries) : List ℤ :=
  ((List.range d).flatMap fun e ↦ level e t).map Prod.snd

/-- The items of a tree by depth and, within a depth, from left to right. -/
def levelItems (t : Entries) : List ℤ := (levelOrder t).map Prod.snd

theorem itemsAbove_succ (d : ℕ) (t : Entries) :
    itemsAbove (d + 1) t = itemsAbove d t ++ (level d t).map Prod.snd := by
  simp [itemsAbove, List.range_succ]

/-- The rounds on the levels above a depth print them and leave the level there on the queue. -/
theorem levels_lead (hmalloc : Allocates malloc) (h : Rep nodes x t) (d : ℕ) (hd : d ≤ t.height)
    (hfits : ∀ e < d, ((level e t).length : ℤ) ≤ intMax) (hqueue : Queued cells q x.toList) :
    ∃ q' cells', Queued cells' q' ((level d t).map Prod.fst) ∧ ∀ fuel, t.numNodes < fuel →
      Leads (levelRound malloc nodes fuel) d ⟨q, cells, []⟩ ⟨q', cells', itemsAbove d t⟩ := by
  induction d with
  | zero =>
    rw [← map_level_zero h] at hqueue
    exact ⟨q, cells, hqueue, fun fuel _ ↦ Leads.refl _⟩
  | succ d ih =>
    obtain ⟨q₁, cells₁, h₁, hleads⟩ := ih (by omega) fun e he ↦ hfits e (by omega)
    obtain ⟨q₂, cells₂, h₂, hround⟩ :=
      levelRound_next hmalloc h (by omega) (hfits d (Nat.lt_succ_self d)) h₁
    refine ⟨q₂, cells₂, h₂, fun fuel hfuel ↦ ?_⟩
    rw [itemsAbove_succ]
    exact (hleads fuel hfuel).trans (Leads.single (hround fuel hfuel (itemsAbove d t)))

/-- The loop ends with an empty queue. -/
theorem levelRound_leave (h : Queued cells q []) (fuel : ℕ) (printed : List ℤ) :
    levelRound malloc nodes fuel ⟨q, cells, printed⟩ = some (.inr (printed, cells)) :=
  if_neg fun hcond ↦ hcond (h.isEmpty_iff.mpr rfl)

/-- A round on a level whose length does not fit in an `int` changes nothing. -/
theorem levelRound_stuck (hqueue : Queued cells q queue) (htoo : intMax < queue.length)
    (hless : (queue.length : ℤ) ≤ 2 * intMax) (hfuel : queue.length < fuel) (printed : List ℤ) :
    levelRound malloc nodes fuel ⟨q, cells, printed⟩ = some (.inl ⟨q, cells, printed⟩) := by
  have hempty : isEmpty q.head ≠ true := by
    rw [ne_eq, hqueue.isEmpty_iff, ← List.length_eq_zero_iff]
    unfold intMax at htoo
    omega
  have hnegative : ¬(0 : ℤ) < int32 queue.length := by
    unfold int32 intMin
    unfold intMax at htoo hless
    omega
  have hdrain : whileLoop (drainBody malloc nodes (int32 queue.length)) fuel
      (0, ⟨q, cells, printed⟩) = some ⟨q, cells, printed⟩ := by
    obtain ⟨fuel, rfl⟩ : ∃ n, fuel = n + 1 := ⟨fuel - 1, by omega⟩
    exact whileLoop_leave (drainBody_leave hnegative _) fuel
  simp only [levelRound, if_pos hempty, hqueue.findLengthQueue hfuel, hdrain, Option.bind_eq_bind,
    Option.bind_some, Option.pure_def]

/-- The traversal of a tree is the loop with the root on the queue. -/
theorem levelOrderTraversal_eq (hmalloc : Allocates malloc) (hspacious : Spacious cells) (a : ℕ) :
    ∃ q cells', Queued cells' q [a] ∧ ∀ nodes fuel,
      levelOrderTraversal malloc nodes fuel cells (some a) =
        whileLoop (levelRound malloc nodes fuel) fuel ⟨q, cells', []⟩ := by
  obtain ⟨q, cells', henqueue, hqueue⟩ := (queued_nil hspacious).enqueue hmalloc a
  refine ⟨q, cells', hqueue, fun nodes fuel ↦ ?_⟩
  rw [levelOrderTraversal, if_neg (Option.some_ne_none a), henqueue]
  rfl

/-- `levelOrderTraversal` prints a tree level by level if each level has at most `INT_MAX` nodes. -/
theorem levelOrderTraversal_returns (hmalloc : Allocates malloc) (hspacious : Spacious cells)
    (h : Rep nodes x t) (hfits : ∀ d, ((level d t).length : ℤ) ≤ intMax) : ∃ cells',
      Returns (fun fuel ↦ levelOrderTraversal malloc nodes fuel cells x) (levelItems t, cells') := by
  cases x with
  | none =>
    obtain rfl := h.eq_none_iff.mp rfl
    exact ⟨cells, 0, fun fuel _ ↦ if_pos rfl⟩
  | some a =>
    obtain ⟨q, cells₁, hqueue, heq⟩ := levelOrderTraversal_eq hmalloc hspacious a
    obtain ⟨q', cells', h', hleads⟩ :=
      levels_lead hmalloc h t.height (Nat.le_refl _) (fun e _ ↦ hfits e) hqueue
    rw [level_eq_nil_iff.mpr (Nat.le_refl _), List.map_nil] at h'
    refine ⟨cells', t.numNodes, fun fuel hfuel ↦ ?_⟩
    have hheight := t.height_le_numNodes
    simp only [heq]
    exact (hleads fuel hfuel).whileLoop_eq (levelRound_leave h' fuel (itemsAbove t.height t))
      (by omega)

/-- `levelOrderTraversal` never returns from a tree with a level of more than `INT_MAX` nodes. -/
theorem not_levelOrderTraversal_returns (hmalloc : Allocates malloc) (hspacious : Spacious cells)
    (h : Rep nodes x t) (htoo : ∃ d, intMax < (level d t).length)
    (result : List ℤ × Store QueueNode) :
    ¬Returns (fun fuel ↦ levelOrderTraversal malloc nodes fuel cells x) result := by
  classical
  obtain ⟨d, hd, hfirst⟩ : ∃ d, intMax < (level d t).length ∧
      ∀ e < d, ((level e t).length : ℤ) ≤ intMax :=
    ⟨Nat.find htoo, Nat.find_spec htoo, fun e he ↦ Int.not_lt.mp (Nat.find_min htoo he)⟩
  have hdepth : d < t.height := Nat.lt_of_not_le fun hle ↦ by
    rw [level_eq_nil_iff.mpr hle, List.length_nil] at hd
    unfold intMax at hd
    omega
  -- the first such level has at most twice as many nodes as the one above
  have hless : ((level d t).length : ℤ) ≤ 2 * intMax := by
    cases d with
    | zero =>
      have hone := length_level_le_pow 0 t
      unfold intMax
      omega
    | succ d =>
      have hdouble := length_level_succ_le d t
      have habove := hfirst d (Nat.lt_succ_self d)
      omega
  obtain ⟨a, rfl⟩ : ∃ a, x = some a := Option.ne_none_iff_exists'.mp fun hnone ↦ by
    rw [h.eq_none_iff.mp hnone] at hdepth
    exact absurd hdepth (Nat.not_lt_zero d)
  obtain ⟨q, cells₁, hqueue, heq⟩ := levelOrderTraversal_eq hmalloc hspacious a
  obtain ⟨q', cells', h', hleads⟩ := levels_lead hmalloc h d (Nat.le_of_lt hdepth) hfirst hqueue
  rintro ⟨bound, hbound⟩
  have hreturned := hbound (bound + t.numNodes + 1 + d) (by omega)
  have hcount := length_level_le d t
  have hstuck : levelRound malloc nodes (bound + t.numNodes + 1 + d) ⟨q', cells', itemsAbove d t⟩ =
      some (.inl ⟨q', cells', itemsAbove d t⟩) := by
    refine levelRound_stuck h' ?_ ?_ ?_ _ <;> rw [List.length_map]
    · exact hd
    · exact hless
    · omega
  simp only [heq] at hreturned
  rw [hleads _ (by omega), whileLoop_stuck hstuck] at hreturned
  exact Option.some_ne_none result hreturned.symm

/-- `levelOrderTraversal` prints a tree level by level if and only if each level has at most `INT_MAX`
nodes. -/
theorem levelOrderTraversal_iff (hmalloc : Allocates malloc) (hspacious : Spacious cells)
    (h : Rep nodes x t) : (∃ cells',
      Returns (fun fuel ↦ levelOrderTraversal malloc nodes fuel cells x) (levelItems t, cells')) ↔
        ∀ d, ((level d t).length : ℤ) ≤ intMax := by
  constructor
  · rintro ⟨cells', hreturns⟩ d
    refine Int.not_lt.mp fun htoo ↦ ?_
    exact not_levelOrderTraversal_returns hmalloc hspacious h ⟨d, htoo⟩ _ hreturns
  · exact levelOrderTraversal_returns hmalloc hspacious h

/-! ### Perfect trees -/

/-- The pointer to the root of a tree. -/
def rootPtr : Entries → Option ℕ
  | nil => none
  | node (a, _) _ _ => some a

/-- The store with the nodes of a tree. -/
def storeOf : Entries → Store BSTNode
  | nil => Store.empty
  | node (a, v) left right => fun b ↦
    if b = a then some ⟨v, rootPtr left, rootPtr right⟩ else (storeOf left b).or (storeOf right b)

theorem storeOf_of_ne {a b : ℕ} (h : b ≠ a) (v : ℤ) (left right : Entries) :
    storeOf (node (a, v) left right) b = (storeOf left b).or (storeOf right b) :=
  if_neg h

theorem storeOf_eq_none {t : Entries} {b : ℕ} (h : b ∉ addresses t) : storeOf t b = none := by
  induction t with
  | nil => rfl
  | node entry left right ihLeft ihRight =>
    obtain ⟨a, v⟩ := entry
    rw [addresses_node, List.mem_append, List.mem_cons, not_or, not_or] at h
    rw [storeOf_of_ne h.2.1, ihLeft h.1, ihRight h.2.2, Option.or_none]

/-- The store with the nodes of a tree represents it. -/
theorem rep_storeOf {t : Entries} (h : (addresses t).Nodup) : Rep (storeOf t) (rootPtr t) t := by
  induction t with
  | nil => rfl
  | node entry left right ihLeft ihRight =>
    obtain ⟨a, v⟩ := entry
    obtain ⟨hnodupLeft, hnodupRight, hleft, hright, hdisjoint⟩ := nodup_node h
    refine ⟨rfl, rootPtr left, rootPtr right, if_pos rfl, ?_, ?_⟩
    · refine (ihLeft hnodupLeft).frame fun b hb ↦ ?_
      have hne : b ≠ a := fun heq ↦ hleft (heq ▸ hb)
      rw [storeOf_of_ne hne, storeOf_eq_none (hdisjoint b hb), Option.or_none]
    · refine (ihRight hnodupRight).frame fun b hb ↦ ?_
      have hne : b ≠ a := fun heq ↦ hright (heq ▸ hb)
      have hother : b ∉ addresses left := fun hmem ↦ hdisjoint b hmem hb
      rw [storeOf_of_ne hne, storeOf_eq_none hother, Option.none_or]

/-- The perfect tree of a height with the addresses after `start`, whose items are the addresses moved
down to the range of an `int`. -/
def perfect : ℕ → ℕ → Entries
  | 0, _ => nil
  | height + 1, start => node (start + 2 ^ height, (start + 2 ^ height : ℕ) + intMin)
      (perfect height start) (perfect height (start + 2 ^ height))

theorem inorder_perfect (height start : ℕ) : inorder (perfect height start) =
    (List.range' (start + 1) (2 ^ height - 1)).map fun a : ℕ ↦ (a, (a : ℤ) + intMin) := by
  induction height generalizing start with
  | zero => rfl
  | succ height ih =>
    have hpos : 0 < 2 ^ height := Nat.two_pow_pos height
    have hlength : 2 ^ (height + 1) - 1 = (2 ^ height - 1) + (1 + (2 ^ height - 1)) := by
      rw [Nat.pow_succ]
      omega
    have hstart : start + 1 + (2 ^ height - 1) = start + 2 ^ height := by omega
    rw [perfect, inorder_node, ih, ih, hlength, ← List.range'_append_1, hstart, Nat.add_comm 1,
      List.range'_succ, List.map_append, List.map_cons]

theorem length_level_perfect {d height : ℕ} (h : d < height) (start : ℕ) :
    (level d (perfect height start)).length = 2 ^ d := by
  induction height generalizing d start with
  | zero => exact absurd h (Nat.not_lt_zero d)
  | succ height ih =>
    cases d with
    | zero => rfl
    | succ d =>
      have hd : d < height := Nat.lt_of_succ_lt_succ h
      rw [perfect, level_succ, List.length_append, ih hd, ih hd, Nat.pow_succ, Nat.mul_two]

theorem nodup_addresses_perfect (height start : ℕ) : (addresses (perfect height start)).Nodup := by
  have haddress : (Prod.fst ∘ fun a : ℕ ↦ (a, (a : ℤ) + intMin)) = id := rfl
  rw [addresses, inorder_perfect, List.map_map, haddress, List.map_id]
  exact List.nodup_range' 1

theorem items_perfect (height start : ℕ) : items (perfect height start) =
    (List.range' (start + 1) (2 ^ height - 1)).map fun a : ℕ ↦ (a : ℤ) + intMin := by
  rw [items, inorder_perfect, List.map_map]
  rfl

theorem strictlyOrdered_perfect (height start : ℕ) : StrictlyOrdered (perfect height start) := by
  rw [strictlyOrdered_iff, items_perfect, List.pairwise_map]
  refine (List.pairwise_lt_range' _).imp fun hlt ↦ ?_
  omega

/-- The perfect tree of height 2. -/
theorem levelOrderTraversal_iff_perfect : ∃ cells', Returns
    (fun fuel ↦ levelOrderTraversal firstFree (storeOf (perfect 2 0)) fuel Store.empty (some 2))
      ([2 + intMin, 1 + intMin, 3 + intMin], cells') :=
  (levelOrderTraversal_iff allocates_firstFree spacious_empty
    (rep_storeOf (nodup_addresses_perfect 2 0))).mpr fun d ↦ by
      have hcount : (level d (perfect 2 0)).length ≤ 3 := length_level_le d _
      unfold intMax
      omega

/-- The perfect tree of height 32, whose lowest level has `2 ^ 31` nodes. -/
theorem not_levelOrderTraversal : ¬∀ (malloc : Store QueueNode → Option ℕ) (nodes : Store BSTNode)
    (cells : Store QueueNode) (x : Option ℕ) (t : Entries), Allocates malloc → Spacious cells →
      Rep nodes x t → StrictlyOrdered t → (∀ v ∈ items t, intMin ≤ v ∧ v ≤ intMax) → ∃ cells',
        Returns (fun fuel ↦ levelOrderTraversal malloc nodes fuel cells x)
          (levelItems t, cells') := by
  intro hall
  have hitems : ∀ v ∈ items (perfect 32 0), intMin ≤ v ∧ v ≤ intMax := by
    intro v hv
    rw [items_perfect, List.mem_map] at hv
    obtain ⟨a, ha, rfl⟩ := hv
    rw [List.mem_range'_1] at ha
    unfold intMin intMax
    omega
  obtain ⟨cells', hreturns⟩ := hall firstFree _ Store.empty _ _ allocates_firstFree spacious_empty
    (rep_storeOf (nodup_addresses_perfect 32 0)) (strictlyOrdered_perfect 32 0) hitems
  refine not_levelOrderTraversal_returns allocates_firstFree spacious_empty
    (rep_storeOf (nodup_addresses_perfect 32 0)) ⟨31, ?_⟩ _ hreturns
  rw [length_level_perfect (by omega)]
  decide

end Jungle.SearchTrees
