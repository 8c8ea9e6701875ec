import Jungle.LinkedLists.Sequence
import Mathlib.Algebra.Ring.Int.Parity
import Mathlib.Data.List.Basic

/-!
# Moving items to the back

`moveOddItemsToBackLL` and `moveEvenItemsToBackLL` of `Data-Structures/tests/linked_list.c`, which are
one function but for the items they move. One pass over the original nodes links each node to be moved
out and behind the tail (`Stage`). The tail is the node itself if it is the last one and no other was
moved before: then it is lost (`moveLoop_drops`). Otherwise the items end up in the right order
(`moveLoop_eq`).
-/

set_option autoImplicit false
set_option relaxedAutoImplicit false

namespace Jungle.LinkedLists

open Jungle.Lib

/-! ### The functions -/

/-- `a->next = next` -/
def setNext (nodes : Store ListNode) (a : ℕ) (next : Option ℕ) : Option (Store ListNode) := do
  let node ← nodes a
  return nodes.put a { node with next := next }

/-- One round of the search for the tail: the node reached and its number. -/
def findTailBody (nodes : Store ListNode) : ℕ × ℤ → Option ((ℕ × ℤ) ⊕ (ℕ × ℤ))
  | (tail, count) => do
    let node ← nodes tail
    match node.next with
    | some next => return .inl (next, int32 (count + 1))
    | none => return .inr (tail, count)

/-- `if (prev == NULL) ll->head = next; else prev->next = next` -/
def skipNode (m : Memory) (p : ℕ) (prev next : Option ℕ) : Option Memory :=
  match prev with
  | none => do
    let l ← m.lists p
    return { m with lists := m.lists.put p { l with head := next } }
  | some prev => do
    let nodes ← setNext m.nodes prev next
    return { m with nodes := nodes }

/-- `tail->next = cur; cur->next = NULL; tail = tail->next`: the nodes and the tail. -/
def appendNode (nodes : Store ListNode) (tail cur : ℕ) : Option (Store ListNode × Option ℕ) := do
  let nodes ← setNext nodes tail (some cur)
  let nodes ← setNext nodes cur none
  let node ← nodes tail
  return (nodes, node.next)

/-- The memory and the variables of the pass. -/
structure Pass where
  memory : Memory
  cur : Option ℕ
  tail : Option ℕ
  prev : Option ℕ
  count : ℤ

/-- One round of the pass that moves some of the items. -/
def moveBody (moves : ℤ → Bool) (p : ℕ) (s : Pass) : Option (Pass ⊕ Memory) :=
  if s.count > 0 then do
    let cur ← s.cur
    let node ← s.memory.nodes cur
    if moves node.item then
      let m ← skipNode s.memory p s.prev node.next
      let tail ← s.tail
      let (nodes, tail) ← appendNode m.nodes tail cur
      return .inl ⟨{ m with nodes := nodes }, node.next, tail, s.prev, int32 (s.count - 1)⟩
    else return .inl ⟨s.memory, node.next, s.tail, some cur, int32 (s.count - 1)⟩
  else some (.inr s.memory)

/-- The function that moves some of the items: the memory afterwards. -/
def moveItemsToBackLL (moves : ℤ → Bool) (fuel : ℕ) (m : Memory) (ll : Option ℕ) :
    Option Memory :=
  match ll with
  | none => some m
  | some p => do
    let l ← m.lists p
    match l.head with
    | none => return m
    | some head =>
      let node ← m.nodes head
      if node.next = none then return m
      let (tail, count) ← whileLoop (findTailBody m.nodes) fuel (head, 1)
      whileLoop (moveBody moves p) fuel ⟨m, some head, some tail, none, count⟩

/-- `moveOddItemsToBackLL(ll)` -/
def moveOddItemsToBackLL (fuel : ℕ) (m : Memory) (ll : Option ℕ) : Option Memory :=
  moveItemsToBackLL (fun item ↦ item.tmod 2 ≠ 0) fuel m ll

/-- `moveEvenItemsToBackLL(ll)` -/
def moveEvenItemsToBackLL (fuel : ℕ) (m : Memory) (ll : Option ℕ) : Option Memory :=
  moveItemsToBackLL (fun item ↦ item.tmod 2 = 0) fuel m ll

/-! ### Steps on chains -/

/-- The header at `p` leads through the nodes to `NULL`, and its counter is as given. -/
def Chain (m : Memory) (p : ℕ) (size : ℤ) (entries : List (ℕ × ℤ)) : Prop :=
  ∃ l, m.lists p = some l ∧ Nodes m.nodes l.head entries none ∧ l.size = size

variable {m : Memory} {p c t : ℕ} {v w size : ℤ} {node : ListNode} {moves : ℤ → Bool}
  {kept rest moved front back entries : List (ℕ × ℤ)} {s : Pass}

theorem Chain.nodup (h : Chain m p size entries) : (entries.map Prod.fst).Nodup := by
  obtain ⟨l, -, hnodes, -⟩ := h
  exact hnodes.nodup

/-- A node of a chain leads to the next one. -/
theorem Chain.exists_node (h : Chain m p size (front ++ (c, v) :: back)) :
    ∃ node, m.nodes c = some node ∧ node.item = v ∧ node.next = (back.map Prod.fst).head? := by
  obtain ⟨l, -, hnodes, -⟩ := h
  exact hnodes.exists_cell

theorem setNext_eq {nodes : Store ListNode} (hnode : nodes c = some node) (next : Option ℕ) :
    setNext nodes c next = some (nodes.put c { node with next := next }) := by
  rw [setNext, hnode]
  rfl

/-- Skipping a node takes it out of the chain and leaves its cell alone. -/
theorem skipNode_eq (h : Chain m p size (front ++ (c, v) :: back)) (hnode : m.nodes c = some node) :
    ∃ m', skipNode m p (front.map Prod.fst).getLast? node.next = some m' ∧
      Chain m' p size (front ++ back) ∧ m'.nodes c = some node := by
  have hnodup := h.nodup
  obtain ⟨l, hl, hnodes, hsize⟩ := h
  rcases List.eq_nil_or_concat' front with rfl | ⟨front, ⟨q, u⟩, rfl⟩
  · obtain ⟨-, cell, hcell, -, hback⟩ := hnodes
    obtain rfl : cell = node := Option.some.inj (hcell.symm.trans hnode)
    refine ⟨{ m with lists := m.lists.put p { l with head := cell.next } }, ?_,
      ⟨_, Store.put_self .., hback, hsize⟩, hnode⟩
    rw [List.map_nil, List.getLast?_nil, skipNode, hl]
    rfl
  · rw [List.append_assoc] at hnodes hnodup
    obtain ⟨z, -, -, prevNode, hprev, hitem, -⟩ := segment_append.mp hnodes
    have hne : c ≠ q := by
      rw [List.map_append, List.nodup_append] at hnodup
      have hpair := (List.nodup_cons.mp hnodup.2.1).1
      rintro rfl
      exact hpair List.mem_cons_self
    refine ⟨{ m with nodes := m.nodes.put q { prevNode with next := node.next } }, ?_,
      ⟨l, hl, ?_, hsize⟩, (Store.put_of_ne _ hne _).trans hnode⟩
    · rw [List.map_append, List.map_singleton, List.getLast?_concat, skipNode,
        setNext_eq hprev]
      rfl
    · rw [List.append_assoc]
      exact hnodes.unlink hnode hitem rfl

/-- A node behind the tail becomes the tail. -/
theorem appendNode_eq (h : Chain m p size (front ++ [(t, w)]))
    (hc : c ∉ (front ++ [(t, w)]).map Prod.fst) (hnode : m.nodes c = some node) :
    ∃ nodes, appendNode m.nodes t c = some (nodes, some c) ∧
      Chain { m with nodes := nodes } p size (front ++ [(t, w)] ++ [(c, node.item)]) := by
  obtain ⟨tailNode, htail, hitem, hnext⟩ := h.exists_node
  obtain ⟨l, hl, hnodes, hsize⟩ := h
  have hne : t ≠ c := fun heq ↦ hc (heq ▸ by simp)
  have hlinked : Nodes ((m.nodes.put c { node with next := none }).put t
      { tailNode with next := some c }) l.head (front ++ (t, w) :: [(c, node.item)]) none :=
    hnodes.link htail hc hitem rfl rfl hnext.symm
  rw [Store.put, Store.put, Function.update_comm hne.symm] at hlinked
  refine ⟨(m.nodes.put t { tailNode with next := some c }).put c { node with next := none }, ?_, l,
    hl, ?_, hsize⟩
  · have hsecond : (m.nodes.put t { tailNode with next := some c }) c = some node :=
      (Store.put_of_ne _ hne.symm _).trans hnode
    rw [appendNode, setNext_eq htail, Option.bind_eq_bind, Option.bind_some, setNext, hsecond,
      Option.bind_eq_bind, Option.bind_some]
    simp only [Option.pure_def, Option.bind_eq_bind, Option.bind_some, Store.put_of_ne _ hne,
      Store.put_self]
  · rw [List.append_assoc]
    exact hlinked

/-- A tail that is put behind itself leads nowhere, and no chain is touched that it is not in. -/
theorem appendNode_self (h : Chain m p size entries) (hc : c ∉ entries.map Prod.fst)
    (hnode : m.nodes c = some node) :
    ∃ nodes, appendNode m.nodes c c = some (nodes, none) ∧
      Chain { m with nodes := nodes } p size entries := by
  obtain ⟨l, hl, hnodes, hsize⟩ := h
  refine ⟨(m.nodes.put c { node with next := some c }).put c { node with next := none }, ?_, l, hl,
    hnodes.frame fun entry hentry ↦ ?_, hsize⟩
  · rw [appendNode, setNext_eq hnode, Option.bind_eq_bind, Option.bind_some, setNext,
      Store.put_self, Option.bind_eq_bind, Option.bind_some]
    simp only [Option.pure_def, Option.bind_eq_bind, Option.bind_some, Store.put_self]
  · have hne : entry.1 ≠ c := ne_of_mem_of_not_mem (List.mem_map_of_mem hentry) hc
    exact (Store.put_of_ne _ hne _).trans (Store.put_of_ne _ hne _)

/-! ### The pass -/

/-- The pass has gone over the original nodes up to `rest`: those to be moved are behind the others. -/
structure Stage (p : ℕ) (size : ℤ) (kept rest moved : List (ℕ × ℤ)) (s : Pass) : Prop where
  chain : Chain s.memory p size (kept ++ rest ++ moved)
  cur : s.cur = ((rest ++ moved).map Prod.fst).head?
  tail : s.tail = ((kept ++ rest ++ moved).map Prod.fst).getLast?
  prev : s.prev = (kept.map Prod.fst).getLast?
  count : s.count = rest.length
  room : (rest.length : ℤ) ≤ intMax

/-- The last node is the only one to be moved. -/
def OnlyLast (moves : ℤ → Bool) (entries : List (ℕ × ℤ)) : Prop :=
  ∃ front last, entries = front ++ [last] ∧ moves last.2 = true ∧ ∀ e ∈ front, moves e.2 = false

theorem OnlyLast.cons {e : ℕ × ℤ} (h : OnlyLast moves entries) (he : moves e.2 = false) :
    OnlyLast moves (e :: entries) := by
  obtain ⟨front, last, rfl, hlast, hfront⟩ := h
  exact ⟨e :: front, last, rfl, hlast, List.forall_mem_cons.mpr ⟨he, hfront⟩⟩

/-- The node of a round, and the counter after it. -/
theorem Stage.round (h : Stage p size kept ((c, v) :: rest) moved s) : ∃ node,
    s.memory.nodes c = some node ∧ node.item = v ∧
      node.next = ((rest ++ moved).map Prod.fst).head? ∧ s.cur = some c ∧ s.count > 0 ∧
      int32 (s.count - 1) = rest.length ∧ (rest.length : ℤ) ≤ intMax := by
  have hchain := h.chain
  have hcount := h.count
  have hroom := h.room
  rw [List.append_assoc, List.cons_append] at hchain
  rw [List.length_cons] at hcount hroom
  push_cast at hcount hroom
  obtain ⟨node, hnode, hitem, hnext⟩ := hchain.exists_node
  refine ⟨node, hnode, hitem, hnext, h.cur, by omega, ?_, by omega⟩
  rw [hcount, Int.add_sub_cancel]
  exact int32_of_mem (by unfold intMin; omega) (by omega)

/-- A round that keeps a node. -/
theorem Stage.keep (h : Stage p size kept ((c, v) :: rest) moved s) (hv : moves v = false) :
    ∃ s', moveBody moves p s = some (.inl s') ∧ Stage p size (kept ++ [(c, v)]) rest moved s' := by
  obtain ⟨node, hnode, rfl, hnext, hcur, hcount, hless, hroom⟩ := h.round
  have hentries : kept ++ [(c, node.item)] ++ rest ++ moved =
      kept ++ (c, node.item) :: rest ++ moved := by rw [List.append_assoc kept, List.singleton_append]
  refine ⟨⟨s.memory, node.next, s.tail, some c, int32 (s.count - 1)⟩, ?_, ?_, hnext, ?_, ?_, hless,
    hroom⟩
  · rw [moveBody, if_pos hcount, hcur, Option.bind_eq_bind, Option.bind_some, hnode,
      Option.bind_eq_bind, Option.bind_some, if_neg (by rw [hv]; exact Bool.false_ne_true)]
    rfl
  · rw [hentries]
    exact h.chain
  · rw [hentries]
    exact h.tail
  · rw [List.map_append, List.map_singleton, List.getLast?_concat]

/-- A round that moves a node which is not the tail. -/
theorem Stage.move (h : Stage p size kept ((c, v) :: rest) moved s) (hv : moves v = true)
    (hrest : rest ++ moved ≠ []) :
    ∃ s', moveBody moves p s = some (.inl s') ∧ Stage p size kept rest (moved ++ [(c, v)]) s' := by
  obtain ⟨node, hnode, rfl, hnext, hcur, hcount, hless, hroom⟩ := h.round
  have hchain := h.chain
  rw [List.append_assoc, List.cons_append] at hchain
  obtain ⟨m₁, hskip, hchain₁, hnode₁⟩ := skipNode_eq hchain hnode
  obtain ⟨mid, ⟨t, w⟩, hmid⟩ := (List.eq_nil_or_concat' (rest ++ moved)).resolve_left hrest
  have htail : s.tail = some t := by
    rw [h.tail, List.append_assoc, List.cons_append, hmid, ← List.cons_append, ← List.append_assoc,
      List.map_append, List.map_singleton, List.getLast?_concat]
  have hfresh : c ∉ (kept ++ (rest ++ moved)).map Prod.fst := by
    have hnodup := hchain.nodup
    rw [List.map_append, List.map_cons, List.perm_middle.nodup_iff, List.nodup_cons,
      ← List.map_append] at hnodup
    exact hnodup.1
  rw [hmid, ← List.append_assoc] at hchain₁ hfresh
  obtain ⟨nodes, happend, hchain₂⟩ := appendNode_eq hchain₁ hfresh hnode₁
  have hentries : kept ++ rest ++ (moved ++ [(c, node.item)]) =
      kept ++ mid ++ [(t, w)] ++ [(c, node.item)] := by
    rw [← List.append_assoc (kept ++ rest), List.append_assoc kept rest, hmid,
      ← List.append_assoc kept]
  refine ⟨⟨{ m₁ with nodes := nodes }, node.next, some c, s.prev, int32 (s.count - 1)⟩, ?_, ?_, ?_,
    ?_, h.prev, hless, hroom⟩
  · rw [moveBody, if_pos hcount, hcur, Option.bind_eq_bind, Option.bind_some, hnode,
      Option.bind_eq_bind, Option.bind_some, if_pos hv, h.prev, hskip, Option.bind_eq_bind,
      Option.bind_some, htail, Option.bind_eq_bind, Option.bind_some, happend]
    rfl
  · rw [hentries]
    exact hchain₂
  · have hne : (rest ++ moved).map Prod.fst ≠ [] := by rwa [Ne, List.map_eq_nil_iff]
    change node.next = _
    have hmap : ((rest ++ moved) ++ [(c, node.item)]).map Prod.fst =
        (rest ++ moved).map Prod.fst ++ [c] := List.map_append
    rw [hnext, ← List.append_assoc, hmap, List.head?_append_of_ne_nil _ hne]
  · rw [hentries, List.map_append, List.map_singleton, List.getLast?_concat]

/-- A round that moves the tail loses it. -/
theorem Stage.drop (h : Stage p size kept [(c, v)] [] s) (hv : moves v = true) :
    ∃ s', moveBody moves p s = some (.inl s') ∧ Chain s'.memory p size kept ∧ s'.count = 0 := by
  obtain ⟨node, hnode, rfl, hnext, hcur, hcount, hless, hroom⟩ := h.round
  have hchain := h.chain
  rw [List.append_nil] at hchain
  obtain ⟨m₁, hskip, hchain₁, hnode₁⟩ := skipNode_eq hchain hnode
  have htail : s.tail = some c := by
    rw [h.tail, List.append_nil, List.map_append, List.map_singleton, List.getLast?_concat]
  have hfresh : c ∉ (kept ++ []).map Prod.fst := by
    have hnodup := hchain.nodup
    rw [List.map_append, List.map_cons, List.perm_middle.nodup_iff, List.nodup_cons,
      ← List.map_append] at hnodup
    exact hnodup.1
  obtain ⟨nodes, happend, hchain₂⟩ := appendNode_self hchain₁ hfresh hnode₁
  rw [List.append_nil] at hchain₂
  refine ⟨⟨{ m₁ with nodes := nodes }, node.next, none, s.prev, int32 (s.count - 1)⟩, ?_, hchain₂,
    hless⟩
  rw [moveBody, if_pos hcount, hcur, Option.bind_eq_bind, Option.bind_some, hnode,
    Option.bind_eq_bind, Option.bind_some, if_pos hv, h.prev, hskip, Option.bind_eq_bind,
    Option.bind_some, htail, Option.bind_eq_bind, Option.bind_some, happend]
  rfl

/-- The pass ends after the last original node. -/
theorem returns_moved (hcount : s.count = 0) :
    Returns (fun fuel ↦ whileLoop (moveBody moves p) fuel s) s.memory := by
  refine returns_leave ?_
  rw [moveBody, if_neg (by omega)]

/-- The pass puts the moved nodes behind the others, unless the last node is the first to be moved. -/
theorem moveLoop_eq (h : Stage p size kept rest moved s)
    (hlast : moved = [] → ¬OnlyLast moves rest) :
    ∃ m, Returns (fun fuel ↦ whileLoop (moveBody moves p) fuel s) m ∧
      Chain m p size (kept ++ rest.filter (fun e ↦ !moves e.2) ++
        (moved ++ rest.filter fun e ↦ moves e.2)) := by
  induction rest generalizing kept moved s with
  | nil =>
    refine ⟨s.memory, returns_moved h.count, ?_⟩
    rw [List.filter_nil, List.filter_nil, List.append_nil, List.append_nil]
    have hchain := h.chain
    rwa [List.append_nil] at hchain
  | cons e rest ih =>
    obtain ⟨c, v⟩ := e
    cases hv : moves v with
    | false =>
      obtain ⟨s', hround, hstage⟩ := h.keep hv
      obtain ⟨m, hreturns, hchain⟩ := ih hstage fun hnil honly ↦ hlast hnil (honly.cons hv)
      refine ⟨m, returns_continue hround hreturns, ?_⟩
      rw [List.filter_cons_of_pos (by rw [hv]; rfl), List.filter_cons_of_neg (by simp [hv])]
      rwa [List.append_assoc kept, List.singleton_append] at hchain
    | true =>
      have hrest : rest ++ moved ≠ [] := by
        intro hnil
        obtain ⟨rfl, rfl⟩ := List.append_eq_nil_iff.mp hnil
        exact hlast rfl ⟨[], (c, v), rfl, hv, fun e he ↦ absurd he List.not_mem_nil⟩
      obtain ⟨s', hround, hstage⟩ := h.move hv hrest
      obtain ⟨m, hreturns, hchain⟩ := ih hstage fun hnil ↦
        absurd hnil (List.append_ne_nil_of_right_ne_nil _ (List.cons_ne_nil _ _))
      refine ⟨m, returns_continue hround hreturns, ?_⟩
      rw [List.filter_cons_of_neg (by simp [hv]), List.filter_cons_of_pos (by exact hv)]
      rwa [List.append_assoc moved, List.singleton_append] at hchain

/-- The pass loses the last node if it is the first to be moved. -/
theorem moveLoop_drops (h : Stage p size kept (front ++ [(c, v)]) [] s) (hv : moves v = true)
    (hfront : ∀ e ∈ front, moves e.2 = false) :
    ∃ m, Returns (fun fuel ↦ whileLoop (moveBody moves p) fuel s) m ∧
      Chain m p size (kept ++ front) := by
  induction front generalizing kept s with
  | nil =>
    obtain ⟨s', hround, hchain, hcount⟩ := h.drop hv
    refine ⟨s'.memory, returns_continue hround (returns_moved hcount), ?_⟩
    rwa [List.append_nil]
  | cons e front ih =>
    obtain ⟨he, hfront⟩ := List.forall_mem_cons.mp hfront
    obtain ⟨s', hround, hstage⟩ := Stage.keep (c := e.1) (v := e.2) h he
    obtain ⟨m, hreturns, hchain⟩ := ih hstage hfront
    refine ⟨m, returns_continue hround hreturns, ?_⟩
    rwa [List.append_assoc, List.singleton_append] at hchain

/-! ### The whole function -/

/-- The search ends at the last node, with the number of the nodes. -/
theorem findTail_eq {nodes : Store ListNode} {a : ℕ} {count : ℤ}
    (h : Nodes nodes (some a) entries none) (hcount : 0 ≤ count)
    (hroom : count + entries.length ≤ intMax + 1) : ∃ tail,
      Returns (fun fuel ↦ whileLoop (findTailBody nodes) fuel (a, count))
        (tail, count + entries.length - 1) ∧ (entries.map Prod.fst).getLast? = some tail := by
  induction entries generalizing a count with
  | nil => exact absurd h (Option.some_ne_none a)
  | cons e entries ih =>
    obtain ⟨b, v⟩ := e
    obtain ⟨ha, node, hnode, -, hrest⟩ := h
    obtain rfl := Option.some.inj ha
    rw [List.length_cons] at hroom ⊢
    push_cast at hroom ⊢
    cases hnext : node.next with
    | none =>
      rw [hnext] at hrest
      obtain rfl : entries = [] := by
        cases entries with
        | nil => rfl
        | cons e entries => exact absurd hrest.1.symm (Option.some_ne_none e.1)
      refine ⟨a, returns_leave ?_, rfl⟩
      simp only [findTailBody, hnode, hnext, Option.bind_eq_bind, Option.bind_some, Option.pure_def,
        List.length_nil, Int.natCast_zero, Int.zero_add, Int.add_sub_cancel]
    | some next =>
      rw [hnext] at hrest
      have hint : int32 (count + 1) = count + 1 := by
        have hpos : 0 < entries.length := by
          cases entries with
          | nil => exact absurd hrest (Option.some_ne_none next)
          | cons e entries => exact Nat.succ_pos _
        exact int32_of_mem (by unfold intMin; omega) (by omega)
      obtain ⟨tail, hreturns, hlast⟩ := ih hrest (show 0 ≤ count + 1 by omega) (by omega)
      refine ⟨tail, ?_, ?_⟩
      · have hround : findTailBody nodes (a, count) = some (.inl (next, count + 1)) := by
          simp only [findTailBody, hnode, hnext, hint, Option.bind_eq_bind, Option.bind_some,
            Option.pure_def]
        rw [show count + (entries.length + 1) - 1 = count + 1 + entries.length - 1 by omega]
        exact returns_continue hround hreturns
      · rw [List.map_cons, List.getLast?_cons, hlast]
        rfl

/-- With two nodes or more, the pass starts. -/
theorem moveItemsToBackLL_pass (moves : ℤ → Bool) (h : IsList m p entries) (hroom : (entries.length : ℤ) ≤ intMax)
    (hlength : 2 ≤ entries.length) : ∃ s, Stage p entries.length [] entries [] s ∧
      ∀ m', Returns (fun fuel ↦ whileLoop (moveBody moves p) fuel s) m' →
        Returns (fun fuel ↦ moveItemsToBackLL moves fuel m (some p)) m' := by
  obtain ⟨l, hl, hnodes, hsize⟩ := h
  obtain ⟨⟨a, v⟩, back, rfl⟩ : ∃ e back, entries = e :: back :=
    List.exists_cons_of_length_pos (by omega)
  have hhead : l.head = some a := hnodes.1
  obtain ⟨-, node, hnode, -, hback⟩ := id hnodes
  have hnext : node.next ≠ none := by
    rw [hback.head_eq, List.head?_map, Ne, Option.map_eq_none_iff, List.head?_eq_none_iff]
    rintro rfl
    exact absurd hlength (Nat.not_succ_le_self 1)
  have hfrom := hnodes
  rw [hhead] at hfrom
  obtain ⟨tail, htail, hlast⟩ := findTail_eq hfrom (show (0 : ℤ) ≤ 1 by decide) (by omega)
  rw [Int.add_comm, Int.add_sub_cancel] at htail
  refine ⟨⟨m, some a, some tail, none, ((a, v) :: back).length⟩,
    ⟨⟨l, hl, ?_, hsize⟩, rfl, ?_, rfl, rfl, hroom⟩, fun m' hpass ↦ ?_⟩
  · rwa [List.nil_append, List.append_nil]
  · rw [List.nil_append, List.append_nil, hlast]
  · simp only [moveItemsToBackLL, hl, hhead, hnode, if_neg hnext, Option.bind_eq_bind,
      Option.bind_some]
    exact htail.bind hpass

/-- With one node or none, nothing happens. -/
theorem moveItemsToBackLL_short (h : IsList m p entries) (hlength : entries.length < 2) :
    Returns (fun fuel ↦ moveItemsToBackLL moves fuel m (some p)) m := by
  obtain ⟨l, hl, hnodes, -⟩ := h
  refine ⟨0, fun fuel _ ↦ ?_⟩
  cases entries with
  | nil =>
    have hhead : l.head = none := hnodes
    simp only [moveItemsToBackLL, hl, hhead, Option.bind_eq_bind, Option.bind_some, Option.pure_def]
  | cons e back =>
    obtain rfl : back = [] := List.eq_nil_of_length_eq_zero (by rw [List.length_cons] at hlength; omega)
    obtain ⟨hhead, node, hnode, -, hnext⟩ := hnodes
    have hnone : node.next = none := hnext
    simp only [moveItemsToBackLL, hl, hhead, hnode, if_pos hnone, Option.bind_eq_bind,
      Option.bind_some, Option.pure_def]

/-! ### What becomes of the items -/

/-- The call ends, and leaves a list of the items. -/
def Leaves (call : ℕ → Option Memory) (p : ℕ) (items : List ℤ) : Prop :=
  ∃ m' entries', Returns call m' ∧ IsList m' p entries' ∧ entries'.map Prod.snd = items

/-- Of several items the last one is the only one to be moved. -/
def LosesLast (moved : ℤ → Prop) (items : List ℤ) : Prop :=
  ∃ front last, front ≠ [] ∧ items = front ++ [last] ∧ moved last ∧ ∀ item ∈ front, ¬moved item

theorem losesLast_iff : LosesLast (fun item ↦ moves item = true) (entries.map Prod.snd) ↔
    2 ≤ entries.length ∧ OnlyLast moves entries := by
  constructor
  · rintro ⟨front, last, hfront, hitems, hlast, hkept⟩
    obtain ⟨front, back, rfl, rfl, hback⟩ := List.map_eq_append_iff.mp hitems
    obtain ⟨e, rfl, rfl⟩ := List.map_eq_singleton_iff.mp hback
    have hpos : 0 < front.length := List.length_pos_of_ne_nil fun hnil ↦ hfront (by rw [hnil]; rfl)
    refine ⟨?_, front, e, rfl, hlast, fun e he ↦ ?_⟩
    · rw [List.length_append, List.length_singleton]
      omega
    · exact Bool.eq_false_iff.mpr (hkept e.2 (List.mem_map_of_mem he))
  · rintro ⟨hlength, front, last, rfl, hlast, hkept⟩
    refine ⟨front.map Prod.snd, last.2, ?_, List.map_append, hlast, fun item hitem ↦ ?_⟩
    · rintro hnil
      rw [List.map_eq_nil_iff.mp hnil] at hlength
      exact absurd hlength (Nat.not_succ_le_self 1)
    · obtain ⟨e, he, rfl⟩ := List.mem_map.mp hitem
      exact Bool.eq_false_iff.mp (hkept e he)

/-- The items to be moved end up behind the others, unless the last one is lost. -/
theorem leaves_iff (moves : ℤ → Bool) (h : IsList m p entries) (hroom : (entries.length : ℤ) ≤ intMax) :
    Leaves (fun fuel ↦ moveItemsToBackLL moves fuel m (some p)) p
      ((entries.map Prod.snd).filter (fun item ↦ !moves item) ++
        (entries.map Prod.snd).filter moves) ↔
      ¬LosesLast (fun item ↦ moves item = true) (entries.map Prod.snd) := by
  have hitems : (entries.map Prod.snd).filter (fun item ↦ !moves item) ++
      (entries.map Prod.snd).filter moves = (entries.filter (fun e ↦ !moves e.2) ++
        entries.filter fun e ↦ moves e.2).map Prod.snd := by
    rw [List.filter_map, List.filter_map, List.map_append]
    rfl
  rw [losesLast_iff, hitems]
  by_cases hlength : 2 ≤ entries.length
  · obtain ⟨s, hstage, hcall⟩ := moveItemsToBackLL_pass moves h hroom hlength
    refine ⟨?_, fun hkeeps ↦ ?_⟩
    · rintro ⟨m', entries', hreturns, hlist, -⟩ ⟨-, front, ⟨c, v⟩, rfl, hlast, hfront⟩
      obtain ⟨m'', hpass, hchain⟩ := moveLoop_drops hstage hlast hfront
      obtain rfl := hreturns.unique (hcall _ hpass)
      obtain ⟨l, hl, hnodes, hsize⟩ := hchain
      obtain ⟨l', hl', hnodes', hsize'⟩ := hlist
      obtain rfl : l = l' := Option.some.inj (hl.symm.trans hl')
      obtain rfl : entries' = [] ++ front := hnodes'.unique hnodes
      rw [hsize, List.length_append, List.length_singleton] at hsize'
      omega
    · obtain ⟨m', hpass, hchain⟩ := moveLoop_eq hstage fun _ honly ↦ hkeeps ⟨hlength, honly⟩
      rw [List.nil_append, List.nil_append] at hchain
      obtain ⟨l, hl, hnodes, hsize⟩ := hchain
      refine ⟨m', _, hcall m' hpass, ⟨l, hl, hnodes, ?_⟩, rfl⟩
      have hperm := (List.filter_append_perm (fun e : ℕ × ℤ ↦ moves e.2) entries).length_eq
      rw [hsize, List.length_append, Nat.add_comm, ← List.length_append, hperm]
  · refine iff_of_true ?_ fun hloses ↦ hlength hloses.1
    refine ⟨m, _, moveItemsToBackLL_short h (not_le.mp hlength), h, ?_⟩
    match entries, hlength with
    | [], _ => rfl
    | [e], _ => cases hmoves : moves e.2 <;> simp [hmoves]
    | _ :: _ :: _, hlength => exact absurd (by simp) hlength

theorem tmod_eq_zero_iff (item : ℤ) : item.tmod 2 = 0 ↔ Even item := by
  rw [even_iff_two_dvd, Int.dvd_iff_tmod_eq_zero]

/-- The two functions do what they are for on every list, whose length its `int` counter holds, unless
the last item is the only one of those to be moved. -/
theorem moveItems_iff (h : IsList m p entries) (hroom : (entries.length : ℤ) ≤ intMax) :
    (Leaves (fun fuel ↦ moveOddItemsToBackLL fuel m (some p)) p
      ((entries.map Prod.snd).filter (fun item ↦ Even item) ++
        (entries.map Prod.snd).filter fun item ↦ ¬Even item) ↔
      ¬LosesLast (fun item ↦ ¬Even item) (entries.map Prod.snd)) ∧
    (Leaves (fun fuel ↦ moveEvenItemsToBackLL fuel m (some p)) p
      ((entries.map Prod.snd).filter (fun item ↦ ¬Even item) ++
        (entries.map Prod.snd).filter fun item ↦ Even item) ↔
      ¬LosesLast Even (entries.map Prod.snd)) := by
  have hodd := leaves_iff (fun item ↦ item.tmod 2 ≠ 0) h hroom
  have heven := leaves_iff (fun item ↦ item.tmod 2 = 0) h hroom
  simp only [ne_eq, tmod_eq_zero_iff, decide_not, Bool.not_not, decide_eq_true_eq,
    Bool.not_eq_true', decide_eq_false_iff_not] at hodd heven
  constructor
  · simpa only [moveOddItemsToBackLL, ne_eq, tmod_eq_zero_iff, decide_not] using hodd
  · simpa only [moveEvenItemsToBackLL, tmod_eq_zero_iff, decide_not] using heven

/-- A memory with a list of two items. -/
def twoItems (first second : ℤ) : Memory where
  lists := Store.empty.put 0 ⟨2, some 1⟩
  nodes := (Store.empty.put 1 ⟨first, some 2⟩).put 2 ⟨second, none⟩

theorem isList_twoItems (first second : ℤ) :
    IsList (twoItems first second) 0 [(1, first), (2, second)] :=
  ⟨⟨2, some 1⟩, rfl, ⟨rfl, ⟨first, some 2⟩, rfl, rfl, rfl, ⟨second, none⟩, rfl, rfl, rfl⟩, rfl⟩

/-- An odd item in front of an even one. -/
theorem moveItems_iff_swap :
    (Leaves (fun fuel ↦ moveOddItemsToBackLL fuel (twoItems 1 2) (some 0)) 0
      (([(1, 1), (2, 2)].map Prod.snd : List ℤ).filter (fun item ↦ Even item) ++
        ([(1, 1), (2, 2)].map Prod.snd : List ℤ).filter fun item ↦ ¬Even item) ↔
      ¬LosesLast (fun item ↦ ¬Even item) ([(1, 1), (2, 2)].map Prod.snd)) ∧
    (Leaves (fun fuel ↦ moveEvenItemsToBackLL fuel (twoItems 1 2) (some 0)) 0
      (([(1, 1), (2, 2)].map Prod.snd : List ℤ).filter (fun item ↦ ¬Even item) ++
        ([(1, 1), (2, 2)].map Prod.snd : List ℤ).filter fun item ↦ Even item) ↔
      ¬LosesLast Even ([(1, 1), (2, 2)].map Prod.snd)) :=
  moveItems_iff (isList_twoItems 1 2) (by decide)

/-- An odd item behind an even one is lost. -/
theorem not_moveItems : ¬∀ (m : Memory) (p : ℕ) (entries : List (ℕ × ℤ)), IsList m p entries →
    (entries.length : ℤ) ≤ intMax →
      Leaves (fun fuel ↦ moveOddItemsToBackLL fuel m (some p)) p
        ((entries.map Prod.snd).filter (fun item ↦ Even item) ++
          (entries.map Prod.snd).filter fun item ↦ ¬Even item) := by
  intro hall
  have hleaves := hall (twoItems 2 1) 0 [(1, 2), (2, 1)] (isList_twoItems 2 1) (by decide)
  have hiff := leaves_iff (fun item ↦ item.tmod 2 ≠ 0) (isList_twoItems 2 1) (by decide)
  refine hiff.mp ?_ ⟨[2], 1, by decide, rfl, by decide, by decide⟩
  exact hleaves

end Jungle.LinkedLists
