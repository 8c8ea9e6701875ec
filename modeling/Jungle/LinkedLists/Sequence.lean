import Jungle.Lib.Run
import Jungle.Lib.Segment
import Jungle.LinkedLists.Basic
import Mathlib.Data.List.InsertIdx

/-!
# The linked list as a sequence

`IsList m p entries` says that the header at `p` leads through `entries`, the addresses of the
nodes with their items, to `NULL`, and that `size` is their number. `findNode_eq`,
`insertNode_eq_of_mem`, `insertNode_eq_of_not_mem`, `removeNode_eq_of_mem` and
`removeNode_eq_of_not_mem` say what the functions do to such a list, and `guarded_run_isList` what a
run of calls does.

Two things keep `insertNode` from being insertion into a sequence. The guard accepts `size + 1`,
which `findNode` rejects later on, but only when the list has a head: an empty list takes index 1.
And `size + 1` wraps to the least `int` when the list has `INT_MAX` nodes, so that the guard then
rejects every index. `Call.Guarded` is the calls that do neither.
-/

set_option autoImplicit false
set_option relaxedAutoImplicit false

namespace Jungle.LinkedLists

open Jungle.Lib

variable {m : Memory} {p : ℕ} {l : LinkedList} {entries : List (ℕ × ℤ)}

/-- The nodes of a store lead from one pointer through the listed nodes to another. -/
abbrev Nodes (nodes : Store ListNode) (x : Option ℕ) (entries : List (ℕ × ℤ)) (y : Option ℕ) :
    Prop :=
  Segment ListNode.item ListNode.next nodes x entries y

/-- The header at `p` is the header of a list with the given nodes. -/
def IsList (m : Memory) (p : ℕ) (entries : List (ℕ × ℤ)) : Prop :=
  ∃ l, m.lists p = some l ∧ Nodes m.nodes l.head entries none ∧ l.size = entries.length

/-- A memory holds one list at most at a header. -/
theorem IsList.entries_unique {entries' : List (ℕ × ℤ)} (h : IsList m p entries)
    (h' : IsList m p entries') : entries = entries' := by
  obtain ⟨l, hl, hnodes, -⟩ := h
  obtain ⟨l', hl', hnodes', -⟩ := h'
  obtain rfl : l = l' := Option.some.inj (hl.symm.trans hl')
  exact hnodes.unique hnodes'

/-- A memory that holds an empty list at address 0 and nothing else. -/
def emptyMemory : Memory := ⟨Store.empty.put 0 ⟨0, none⟩, Store.empty⟩

/-- Of the headers only `p` and of the nodes only the listed ones differ between two memories. -/
def OnlyTouches (p : ℕ) (addresses : List ℕ) (m m' : Memory) : Prop :=
  (∀ q, q ≠ p → m'.lists q = m.lists q) ∧ ∀ a, a ∉ addresses → m'.nodes a = m.nodes a

/-- The address of the node at an index, `none` out of range. -/
def nodeAt (entries : List (ℕ × ℤ)) (index : ℤ) : Option ℕ :=
  if 0 ≤ index then (entries.map Prod.fst)[index.toNat]? else none

theorem nodeAt_of_mem {entries : List (ℕ × ℤ)} {index : ℤ} (hindex : 0 ≤ index)
    (hbound : index.toNat < entries.length) :
    nodeAt entries index = some (entries[index.toNat]).1 := by
  rw [nodeAt, if_pos hindex]
  simp [hbound]

theorem nodeAt_of_not_mem {entries : List (ℕ × ℤ)} {index : ℤ}
    (hindex : ¬(0 ≤ index ∧ index < entries.length)) : nodeAt entries index = none := by
  unfold nodeAt
  split_ifs with hnonneg
  · rw [List.getElem?_eq_none_iff, List.length_map]
    omega
  · rfl

/-! ### `findNode` -/

theorem findNodeLoop_eq {nodes : Store ListNode} {temp : ℕ} {entries : List (ℕ × ℤ)}
    (h : Nodes nodes (some temp) entries none) (index : ℕ) :
    findNodeLoop nodes index temp = some (entries.map Prod.fst)[index]? := by
  induction index generalizing temp entries with
  | zero =>
    rw [findNodeLoop, ← List.head?_eq_getElem?, ← h.head_eq]
  | succ index ih =>
    cases entries with
    | nil => exact absurd h (by simp)
    | cons entry entries =>
      obtain ⟨a, v⟩ := entry
      obtain ⟨hx, node, hnode, -, hrest⟩ := h
      obtain rfl := Option.some.inj hx
      simp only [findNodeLoop, hnode, Option.bind_eq_bind, Option.bind_some, List.map_cons,
        List.getElem?_cons_succ]
      cases hnext : node.next with
      | none =>
        obtain rfl : entries = [] := by
          cases entries with
          | nil => rfl
          | cons entry entries => exact absurd (hnext.symm.trans hrest.1) (by simp)
        rfl
      | some temp' => exact ih (hnext ▸ hrest)

/-- `findNode` returns the node at the index, `NULL` out of range. -/
theorem findNode_eq (h : IsList m p entries) (index : ℤ) :
    findNode m (some p) index = some (nodeAt entries index) := by
  obtain ⟨l, hl, hnodes, hsize⟩ := h
  simp only [findNode, hl, Option.bind_eq_bind, Option.bind_some, Option.pure_def]
  split_ifs with hguard
  · rw [nodeAt_of_not_mem (by omega)]
  · have hmem : 0 ≤ index ∧ index < entries.length := by omega
    cases hhead : l.head with
    | none =>
      rw [hhead] at hnodes
      cases entries with
      | nil => exact absurd hmem (by simp)
      | cons entry entries => exact absurd hnodes.1 (by simp)
    | some temp =>
      rw [nodeAt, if_pos hmem.1]
      exact findNodeLoop_eq (hhead ▸ hnodes) index.toNat

/-! ### `insertNode` -/

/-- A sequence split in front of the node before an index. -/
theorem split_at {entries : List (ℕ × ℤ)} {index : ℕ} (hpos : 0 < index)
    (hbound : index ≤ entries.length) :
    ∃ front a v back, entries = front ++ (a, v) :: back ∧ front.length = index - 1 ∧
      nodeAt entries (index - 1 : ℤ) = some a := by
  have hlt : index - 1 < entries.length := by omega
  refine ⟨entries.take (index - 1), entries[index - 1].1, entries[index - 1].2,
    entries.drop index, ?_, ?_, ?_⟩
  · have hdrop := List.drop_eq_getElem_cons hlt
    rw [show index - 1 + 1 = index by omega] at hdrop
    rw [← hdrop, List.take_append_drop]
  · rw [List.length_take]
    omega
  · have htoNat : (index - 1 : ℤ).toNat = index - 1 := by omega
    rw [nodeAt_of_mem (by omega) (by omega)]
    simp only [htoNat]

theorem insertIdx_split (front back : List (ℕ × ℤ)) (new : ℕ × ℤ) :
    (front ++ back).insertIdx front.length new = front ++ new :: back := by
  induction front with
  | nil => exact List.insertIdx_zero
  | cons first front ih =>
    simp only [List.cons_append, List.length_cons, List.insertIdx_succ_cons, ih]

theorem insertIdx_after (front back : List (ℕ × ℤ)) (entry new : ℕ × ℤ) :
    (front ++ entry :: back).insertIdx (front.length + 1) new = front ++ entry :: new :: back := by
  have hsplit := insertIdx_split (front ++ [entry]) back new
  rwa [List.append_assoc, List.append_assoc, List.length_append, List.singleton_append,
    List.singleton_append, List.length_singleton] at hsplit

theorem eraseIdx_after (front back : List (ℕ × ℤ)) (entry old : ℕ × ℤ) :
    (front ++ entry :: old :: back).eraseIdx (front.length + 1) = front ++ entry :: back := by
  induction front with
  | nil => rfl
  | cons first front ih =>
    simp only [List.cons_append, List.length_cons, List.eraseIdx_cons_succ, ih]

/-- Calls of `insertNode` with an index the guard rejects. -/
theorem insertNode_eq_of_guard (hl : m.lists p = some l) {index : ℤ}
    (hguard : index < 0 ∨ index > int32 (l.size + 1)) (value : ℤ) (new : ℕ) :
    insertNode m (some p) index value new = some (-1, m) := by
  simp only [insertNode, hl, Option.bind_eq_bind, Option.bind_some, if_pos hguard,
    Option.pure_def]

/-- Calls of `insertNode` that give the list a new head. -/
theorem insertNode_eq_of_first (hl : m.lists p = some l) {index : ℤ}
    (hguard : ¬(index < 0 ∨ index > int32 (l.size + 1))) (hfirst : l.head = none ∨ index = 0)
    (value : ℤ) (new : ℕ) :
    insertNode m (some p) index value new =
      some (0, ⟨m.lists.put p ⟨int32 (l.size + 1), some new⟩,
        m.nodes.put new ⟨value, l.head⟩⟩) := by
  simp only [insertNode, hl, Option.bind_eq_bind, Option.bind_some, if_neg hguard,
    if_pos hfirst, Option.pure_def]

/-- Calls of `insertNode` that link a node in after the node `pre`. -/
theorem insertNode_eq_of_pre (hl : m.lists p = some l) {index : ℤ}
    (hguard : ¬(index < 0 ∨ index > int32 (l.size + 1))) (hfirst : ¬(l.head = none ∨ index = 0))
    {pre : ℕ} (hfind : findNode m (some p) (index - 1) = some (some pre)) {node : ListNode}
    (hnode : m.nodes pre = some node) (value : ℤ) (new : ℕ) :
    insertNode m (some p) index value new =
      some (0, ⟨m.lists.put p { l with size := int32 (l.size + 1) },
        (m.nodes.put new ⟨value, node.next⟩).put pre { node with next := some new }⟩) := by
  simp only [insertNode, hl, Option.bind_eq_bind, Option.bind_some, if_neg hguard,
    if_neg hfirst, hfind, hnode, Option.pure_def]

/-- The counter of a list that has room for one more node. -/
theorem int32_size (h : l.size = entries.length) (hroom : (entries.length : ℤ) < intMax) :
    int32 (l.size + 1) = entries.length + 1 := by
  rw [int32_of_mem (by unfold intMin; omega) (by omega), h]

/-- `insertNode` in range inserts the new node at the index. -/
theorem insertNode_eq_of_mem (h : IsList m p entries) (hroom : (entries.length : ℤ) < intMax)
    {index : ℤ} (hindex : 0 ≤ index ∧ index ≤ entries.length) (value : ℤ) {new : ℕ}
    (hnew : m.nodes new = none) :
    ∃ m', insertNode m (some p) index value new = some (0, m') ∧
      IsList m' p (entries.insertIdx index.toNat (new, value)) ∧
      OnlyTouches p (new :: entries.map Prod.fst) m m' := by
  have hlist := h
  obtain ⟨l, hl, hnodes, hsize⟩ := h
  have hcount := int32_size hsize hroom
  have hguard : ¬(index < 0 ∨ index > int32 (l.size + 1)) := by omega
  have hlength : ((entries.insertIdx index.toNat (new, value)).length : ℤ) =
      entries.length + 1 := by
    rw [List.length_insertIdx_of_le_length (by omega)]
    push_cast
    rfl
  by_cases hfirst : l.head = none ∨ index = 0
  · refine ⟨_, insertNode_eq_of_first hl hguard hfirst value new, ⟨_, Store.put_self .., ?_, ?_⟩,
      fun q hq ↦ Store.put_of_ne _ hq _, fun a ha ↦ Store.put_of_ne _ ?_ _⟩
    · have hzero : index.toNat = 0 := by
        rcases hfirst with hhead | rfl
        · rw [hhead] at hnodes
          cases entries with
          | nil => simp only [List.length_nil] at hindex; omega
          | cons entry entries => exact absurd hnodes.1 (by simp)
        · rfl
      rw [hzero, List.insertIdx_zero]
      refine ⟨rfl, _, Store.put_self .., rfl, hnodes.frame fun entry hentry ↦ ?_⟩
      refine Store.put_of_ne _ (fun heq ↦ ?_) _
      obtain ⟨node, hnode, -⟩ := hnodes.allocated hentry
      rw [heq, hnew] at hnode
      exact absurd hnode (by simp)
    · rw [hlength, ← hcount]
    · exact fun heq ↦ ha (List.mem_cons.mpr (Or.inl heq))
  · have hpos : 0 < index.toNat := by omega
    have hbound : index.toNat ≤ entries.length := by omega
    obtain ⟨front, a, v, back, rfl, hfront, hat⟩ := split_at hpos hbound
    have hcast : (index.toNat : ℤ) = index := by omega
    rw [hcast] at hat
    have hmem : (a, v) ∈ front ++ (a, v) :: back := by simp
    obtain ⟨node, hnode, hitem⟩ := hnodes.allocated hmem
    have hfind : findNode m (some p) (index - 1) = some (some a) := by
      rw [findNode_eq hlist, hat]
    refine ⟨_, insertNode_eq_of_pre hl hguard hfirst hfind hnode value new,
      ⟨_, Store.put_self .., ?_, ?_⟩, fun q hq ↦ Store.put_of_ne _ hq _, fun b hb ↦ ?_⟩
    · rw [show index.toNat = front.length + 1 by omega, insertIdx_after]
      exact hnodes.insert hnode hnew hitem rfl rfl rfl
    · rw [hlength, ← hcount]
    · simp only [List.map_append, List.map_cons, List.mem_cons, List.mem_append, not_or] at hb
      exact (Store.put_of_ne _ hb.2.2.1 _).trans (Store.put_of_ne _ hb.1 _)

/-- `insertNode` out of range leaves the memory alone, unless the list is empty and the index
one. -/
theorem insertNode_eq_of_not_mem (h : IsList m p entries)
    (hroom : (entries.length : ℤ) < intMax) {index : ℤ}
    (hindex : ¬(0 ≤ index ∧ index ≤ entries.length)) (hslip : ¬(entries = [] ∧ index = 1))
    (value : ℤ) (new : ℕ) :
    insertNode m (some p) index value new = some (-1, m) := by
  have hlist := h
  obtain ⟨l, hl, hnodes, hsize⟩ := h
  by_cases hguard : index < 0 ∨ index > int32 (l.size + 1)
  · exact insertNode_eq_of_guard hl hguard value new
  · have hcount := int32_size hsize hroom
    have hlast : index = entries.length + 1 := by omega
    have hhead : ¬(l.head = none ∨ index = 0) := by
      rintro (hhead | rfl)
      · rw [hhead] at hnodes
        cases entries with
        | nil => exact hslip ⟨rfl, by simpa using hlast⟩
        | cons entry entries => exact absurd hnodes.1 (by simp)
      · omega
    have hfind : findNode m (some p) (index - 1) = some none := by
      rw [findNode_eq hlist, nodeAt_of_not_mem (by omega)]
    simp only [insertNode, hl, Option.bind_eq_bind, Option.bind_some, if_neg hguard, if_neg hhead,
      hfind, Option.pure_def]

/-! ### `removeNode` -/

/-- `removeNode` out of range leaves the memory alone. -/
theorem removeNode_eq_of_not_mem (h : IsList m p entries) {index : ℤ}
    (hindex : ¬(0 ≤ index ∧ index < entries.length)) :
    removeNode m (some p) index = some (-1, m) := by
  obtain ⟨l, hl, -, hsize⟩ := h
  have hguard : index < 0 ∨ index ≥ l.size := by omega
  simp only [removeNode, hl, Option.bind_eq_bind, Option.bind_some, if_pos hguard,
    Option.pure_def]

/-- Calls of `removeNode` that unlink the head. -/
theorem removeNode_eq_of_first (hl : m.lists p = some l) (hguard : ¬((0 : ℤ) < 0 ∨ 0 ≥ l.size))
    {head : ℕ} (hhead : l.head = some head) {node : ListNode} (hnode : m.nodes head = some node) :
    removeNode m (some p) 0 =
      some (0, ⟨m.lists.put p ⟨int32 (l.size - 1), node.next⟩, m.nodes.free head⟩) := by
  simp only [removeNode, hl, Option.bind_eq_bind, Option.bind_some, if_neg hguard, ↓reduceIte,
    hhead, hnode, Option.pure_def]

/-- Calls of `removeNode` that unlink the node after the node `pre`. -/
theorem removeNode_eq_of_pre (hl : m.lists p = some l) {index : ℤ}
    (hguard : ¬(index < 0 ∨ index ≥ l.size)) (hfirst : index ≠ 0)
    {pre : ℕ} (hfind : findNode m (some p) (index - 1) = some (some pre)) {node : ListNode}
    (hnode : m.nodes pre = some node) {cur : ℕ} (hcur : node.next = some cur)
    {curNode : ListNode} (hcurNode : m.nodes cur = some curNode) :
    removeNode m (some p) index =
      some (0, ⟨m.lists.put p { l with size := int32 (l.size - 1) },
        (m.nodes.put pre { node with next := curNode.next }).free cur⟩) := by
  simp only [removeNode, hl, Option.bind_eq_bind, Option.bind_some, if_neg hguard,
    if_neg hfirst, hfind, hnode, hcur, hcurNode, Option.pure_def]

/-- `removeNode` in range unlinks and frees the node at the index. -/
theorem removeNode_eq_of_mem (h : IsList m p entries) (hroom : (entries.length : ℤ) ≤ intMax)
    {index : ℤ} (hindex : 0 ≤ index ∧ index < entries.length) :
    ∃ m', removeNode m (some p) index = some (0, m') ∧
      IsList m' p (entries.eraseIdx index.toNat) ∧
      OnlyTouches p (entries.map Prod.fst) m m' := by
  have hlist := h
  obtain ⟨l, hl, hnodes, hsize⟩ := h
  have hguard : ¬(index < 0 ∨ index ≥ l.size) := by omega
  have hcount : int32 (l.size - 1) = (entries.eraseIdx index.toNat).length := by
    rw [int32_of_mem (by unfold intMin; omega) (by omega),
      List.length_eraseIdx_of_lt (by omega)]
    omega
  by_cases hfirst : index = 0
  · subst hfirst
    cases entries with
    | nil => exact absurd hindex (by simp)
    | cons entry entries =>
      obtain ⟨a, v⟩ := entry
      have hnodup := hnodes.nodup
      obtain ⟨hhead, node, hnode, -, hrest⟩ := hnodes
      refine ⟨_, removeNode_eq_of_first hl hguard hhead hnode, ⟨_, Store.put_self .., ?_, hcount⟩,
        fun q hq ↦ Store.put_of_ne _ hq _, fun b hb ↦ Store.free_of_ne _ fun heq ↦ hb (by simp [heq])⟩
      refine hrest.frame fun entry hentry ↦ Store.free_of_ne _ fun heq ↦ ?_
      have hmem : entry.1 ∈ entries.map Prod.fst := List.mem_map_of_mem hentry
      rw [List.map_cons, List.nodup_cons] at hnodup
      exact hnodup.1 (heq ▸ hmem)
  · have hpos : 0 < index.toNat := by omega
    have hbound : index.toNat ≤ entries.length := by omega
    obtain ⟨front, a, v, rest, rfl, hfront, hat⟩ := split_at hpos hbound
    have hcast : (index.toNat : ℤ) = index := by omega
    rw [hcast] at hat
    cases rest with
    | nil => simp only [List.length_append, List.length_cons, List.length_nil] at hindex; omega
    | cons second back =>
      obtain ⟨b, w⟩ := second
      obtain ⟨z, hnodesFront, hz, node, hnode, hitem, hb, curNode, hcurNode, -, -⟩ :=
        segment_append.mp hnodes
      have hfind : findNode m (some p) (index - 1) = some (some a) := by
        rw [findNode_eq hlist, hat]
      refine ⟨_, removeNode_eq_of_pre hl hguard hfirst hfind hnode hb hcurNode,
        ⟨_, Store.put_self .., ?_, hcount⟩, fun q hq ↦ Store.put_of_ne _ hq _, fun c hc ↦ ?_⟩
      · rw [show index.toNat = front.length + 1 by omega, eraseIdx_after]
        exact hnodes.remove hcurNode hitem rfl
      · simp only [List.map_append, List.map_cons, List.mem_cons, List.mem_append, not_or] at hc
        exact (Store.free_of_ne _ hc.2.2.1).trans (Store.put_of_ne _ hc.2.1 _)

end Jungle.LinkedLists
