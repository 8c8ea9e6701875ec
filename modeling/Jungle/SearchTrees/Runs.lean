import Jungle.Lib.Run
import Jungle.SearchTrees.Refinement
import Mathlib.Data.Finset.Insert
import Mathlib.Data.Finset.Erase

/-!
# Runs of the search tree

A run starts with the empty tree and continues with calls of `insertBSTNode(&root, value)` and
`root = removeNodeFromTree(root, value)`. `run_refines` says that the tree a run reaches is strictly
ordered, that its items are the values inserted and not removed since, and that the next call
terminates, changes nothing where it should not, and frees exactly one node where it removes a
value.
-/

set_option autoImplicit false
set_option relaxedAutoImplicit false

namespace Jungle.SearchTrees

open BinaryTree Jungle.Lib

/-- The store and the root pointer of the caller. -/
structure State where
  nodes : Store BSTNode
  root : Option ℕ

/-- The calls of a run; `new` is what `malloc` returns if `insertBSTNode` calls it. -/
inductive Call
  | insert (value : ℤ) (new : Option ℕ)
  | remove (value : ℤ)

/-- Runs a call on the root pointer. -/
def Call.exec (s : State) (fuel : ℕ) : Call → Option State
  | .insert value new => do
    let (root, nodes) ← insertBSTNode fuel s.nodes s.root value new
    return ⟨nodes, root⟩
  | .remove value => do
    let (root, nodes) ← removeNodeFromTree fuel s.nodes s.root value
    return ⟨nodes, root⟩

/-- `malloc` returns an address that is not in use. -/
def Call.Fresh (s : State) : Call → Prop
  | .insert _ new => ∀ a ∈ new, s.nodes a = none
  | .remove _ => True

/-- One call that returns. -/
def Step (s : State) (call : Call) (s' : State) : Prop :=
  call.Fresh s ∧ Returns (call.exec s) s'

/-- The values in the set after a call. An insertion that gets no memory does not happen. -/
def valuesAfter (values : Finset ℤ) : Call → Finset ℤ
  | .insert _ none => values
  | .insert value (some _) => insert value values
  | .remove value => values.erase value

/-- Exactly the cell `b` is freed between two stores. -/
def FreesExactly (nodes nodes' : Store BSTNode) (b : ℕ) : Prop :=
  nodes b ≠ none ∧ ∀ c, nodes' c = none ↔ nodes c = none ∨ c = b

/-- What a call promises, given the values in the tree before it. -/
def Call.Conforms (s s' : State) (values : Finset ℤ) : Call → Prop
  | .insert value new => (value ∈ values → s' = s) ∧ (new = none → s' = s)
  | .remove value => (value ∉ values → s' = s) ∧
      (value ∈ values → ∃ b, FreesExactly s.nodes s'.nodes b)

/-- The root pointer leads to a strictly ordered tree of the values. -/
structure IsTree (s : State) (values : Finset ℤ) (t : Entries) : Prop where
  rep : Rep s.nodes s.root t
  nodup : (addresses t).Nodup
  ordered : StrictlyOrdered t
  mem_iff : ∀ v, v ∈ items t ↔ v ∈ values

variable {s s' : State} {values : Finset ℤ} {t : Entries}

/-! ### One call -/

/-- Insertion of a present value changes nothing. -/
theorem insertValue_of_mem {value : ℤ} (new : ℕ) {t : Entries} (hordered : StrictlyOrdered t)
    (hpresent : value ∈ items t) : insertValue value new t = t := by
  induction t with
  | nil => exact absurd hpresent List.not_mem_nil
  | node entry left right ihLeft ihRight =>
    obtain ⟨a, v⟩ := entry
    obtain ⟨hleft, hright, hbelow, habove⟩ := strictlyOrdered_node.mp hordered
    rw [items_node, List.mem_append, List.mem_cons] at hpresent
    unfold insertValue
    split_ifs with hlt hgt
    · rcases hpresent with hmem | rfl | hmem
      · rw [ihLeft hleft hmem]
      · exact absurd hlt (lt_irrefl _)
      · exact absurd (habove value hmem) (lt_asymm hlt)
    · rcases hpresent with hmem | rfl | hmem
      · exact absurd (hbelow value hmem) (lt_asymm hgt)
      · exact absurd hgt (lt_irrefl _)
      · rw [ihRight hright hmem]
    · rfl

/-- The root pointer leads to the tree and the other cells are those of `others`. -/
def Holds (others : Store BSTNode) (t : Entries) (s : State) : Prop :=
  Rep s.nodes s.root t ∧ ∀ b, b ∉ addresses t → s.nodes b = others b

/-- The tree and the other cells fix the state. -/
theorem Holds.unique {others : Store BSTNode} (h : Holds others t s) (h' : Holds others t s') :
    s = s' := by
  obtain ⟨nodes, root⟩ := s
  obtain ⟨nodes', root'⟩ := s'
  obtain ⟨rfl, hcells⟩ := h'.1.cells_eq h.1
  obtain rfl : nodes = nodes' := by
    ext1 b
    by_cases hmem : b ∈ addresses t
    · exact hcells b hmem
    · exact (h.2 b hmem).trans (h'.2 b hmem).symm
  rfl

theorem Rep.ne_none {nodes : Store BSTNode} {x : Option ℕ} (h : Rep nodes x t) {b : ℕ}
    (hmem : b ∈ addresses t) : nodes b ≠ none := by
  obtain ⟨entry, hentry, rfl⟩ := List.mem_map.mp hmem
  obtain ⟨cell, hcell, -⟩ := h.allocated hentry
  rw [hcell]
  exact Option.some_ne_none cell

/-- A call of `insertBSTNode` returns the tree of the insertion next to the old cells. -/
theorem insert_returns (h : IsTree s values t) (value : ℤ) {new : Option ℕ}
    (hfresh : ∀ a ∈ new, s.nodes a = none) : ∃ s', Returns ((Call.insert value new).exec s) s' ∧
      Holds s.nodes (insertOutcome value t new) s' := by
  have hnew : ∀ a ∈ new, a ∉ addresses t := fun a ha hmem ↦ h.rep.ne_none hmem (hfresh a ha)
  refine exists_returns t.numNodes (fun fuel hfuel ↦ ?_) fun _ _ ↦ Holds.unique
  obtain ⟨x', nodes', hcall, hrep, hkeep⟩ := insertBSTNode_spec value hnew h.rep h.nodup hfuel
  refine ⟨⟨nodes', x'⟩, ?_, hrep, hkeep⟩
  simp only [Call.exec, hcall, Option.bind_eq_bind, Option.bind_some, Option.pure_def]

/-- The cells that are not at the given addresses. -/
def cellsOutside (nodes : Store BSTNode) (used : List ℕ) : Store BSTNode :=
  fun b ↦ if b ∈ used then none else nodes b

theorem cellsOutside_of_mem {nodes : Store BSTNode} {used : List ℕ} {b : ℕ} (h : b ∈ used) :
    cellsOutside nodes used b = none := if_pos h

theorem cellsOutside_of_not_mem {nodes : Store BSTNode} {used : List ℕ} {b : ℕ} (h : b ∉ used) :
    cellsOutside nodes used b = nodes b := if_neg h

/-- A call of `removeNodeFromTree` returns the tree of the removal next to the old cells, less those
of the tree. -/
theorem remove_returns (h : IsTree s values t) (value : ℤ) :
    ∃ s', Returns ((Call.remove value).exec s) s' ∧
      Holds (cellsOutside s.nodes (addresses t)) (removeValue value t) s' := by
  refine exists_returns t.numNodes (fun fuel hfuel ↦ ?_) fun _ _ ↦ Holds.unique
  obtain ⟨x', nodes', hcall, hrep, hkeep, hfree⟩ :=
    removeNodeFromTree_spec value h.rep h.nodup hfuel
  refine ⟨⟨nodes', x'⟩, ?_, hrep, fun b hb ↦ ?_⟩
  · simp only [Call.exec, hcall, Option.bind_eq_bind, Option.bind_some, Option.pure_def]
  · by_cases hmem : b ∈ addresses t
    · exact (hfree b hmem hb).trans (cellsOutside_of_mem hmem).symm
    · exact (hkeep b hmem).trans (cellsOutside_of_not_mem hmem).symm

/-- A call of `insertBSTNode` keeps the tree of the values and conforms. -/
theorem insert_conforms (h : IsTree s values t) (value : ℤ) {new : Option ℕ}
    (hfresh : ∀ a ∈ new, s.nodes a = none) :
    ∃ s' t', Returns ((Call.insert value new).exec s) s' ∧
      IsTree s' (valuesAfter values (.insert value new)) t' ∧
      (Call.insert value new).Conforms s s' values := by
  obtain ⟨s', hreturns, hholds⟩ := insert_returns h value hfresh
  have hsame : insertOutcome value t new = t → s' = s := fun heq ↦
    Holds.unique (heq ▸ hholds) ⟨h.rep, fun _ _ ↦ rfl⟩
  cases new with
  | none =>
    obtain rfl := hsame rfl
    exact ⟨s', t, hreturns, h, fun _ ↦ rfl, fun _ ↦ rfl⟩
  | some a =>
    refine ⟨s', _, hreturns, ⟨hholds.1, ?_, strictlyOrdered_insertValue value a h.ordered,
      fun v ↦ ?_⟩, fun hmem ↦ ?_, fun hnone ↦ absurd hnone (Option.some_ne_none a)⟩
    · by_cases hpresent : value ∈ items t
      · rw [insertOutcome, insertValue_of_mem a h.ordered hpresent]
        exact h.nodup
      · obtain ⟨front, back, hsplit, hinsert⟩ := addresses_insertValue a h.ordered hpresent
        rw [insertOutcome, hinsert, List.nodup_middle, List.nodup_cons, ← hsplit]
        exact ⟨fun hmem ↦ h.rep.ne_none hmem (hfresh a rfl), h.nodup⟩
    · rw [insertOutcome, mem_items_insertValue, valuesAfter, Finset.mem_insert, h.mem_iff]
    · exact hsame (insertValue_of_mem a h.ordered ((h.mem_iff value).mpr hmem))

/-- A call of `removeNodeFromTree` keeps the tree of the values and conforms. -/
theorem remove_conforms (h : IsTree s values t) (value : ℤ) :
    ∃ s' t', Returns ((Call.remove value).exec s) s' ∧
      IsTree s' (valuesAfter values (.remove value)) t' ∧
      (Call.remove value).Conforms s s' values := by
  obtain ⟨s', hreturns, hrep, hcells⟩ := remove_returns h value
  refine ⟨s', _, hreturns, ⟨hrep, ?_, strictlyOrdered_removeValue value h.ordered, fun v ↦ ?_⟩,
    fun habsent ↦ ?_, fun hpresent ↦ ?_⟩
  · by_cases hpresent : value ∈ items t
    · obtain ⟨front, b, back, hsplit, hremove⟩ := addresses_removeValue h.ordered hpresent
      have hnodup := h.nodup
      rw [hsplit, List.nodup_middle, List.nodup_cons] at hnodup
      rw [hremove]
      exact hnodup.2
    · rw [removeValue_of_not_mem h.ordered hpresent]
      exact h.nodup
  · rw [items_removeValue value h.ordered, List.mem_filter, decide_eq_true_iff, h.mem_iff,
      valuesAfter, Finset.mem_erase, and_comm]
  · rw [← h.mem_iff] at habsent
    rw [removeValue_of_not_mem h.ordered habsent] at hrep hcells
    refine Holds.unique ⟨hrep, fun b hb ↦ ?_⟩ ⟨h.rep, fun _ _ ↦ rfl⟩
    exact (hcells b hb).trans (cellsOutside_of_not_mem hb)
  · rw [← h.mem_iff] at hpresent
    obtain ⟨front, b, back, hsplit, hremove⟩ := addresses_removeValue h.ordered hpresent
    have hb : b ∈ addresses t := by
      rw [hsplit]
      exact List.mem_append_right _ List.mem_cons_self
    have hnodup := h.nodup
    rw [hsplit, List.nodup_middle, List.nodup_cons] at hnodup
    have hsplitMem : ∀ c, c ∈ addresses t ↔ c ∈ addresses (removeValue value t) ∨ c = b := by
      intro c
      rw [hsplit, hremove, List.mem_append, List.mem_cons, List.mem_append]
      tauto
    refine ⟨b, h.rep.ne_none hb, fun c ↦ ?_⟩
    by_cases hc : c ∈ addresses (removeValue value t)
    · have hne : c ≠ b := ne_of_mem_of_not_mem (hremove ▸ hc) hnodup.1
      exact iff_of_false (hrep.ne_none hc)
        (not_or.mpr ⟨h.rep.ne_none ((hsplitMem c).mpr (Or.inl hc)), hne⟩)
    · rw [hcells c hc]
      by_cases hmem : c ∈ addresses t
      · rw [cellsOutside_of_mem hmem]
        exact iff_of_true rfl (Or.inr (((hsplitMem c).mp hmem).resolve_left hc))
      · rw [cellsOutside_of_not_mem hmem, or_iff_left (ne_of_mem_of_not_mem hb hmem).symm]

/-- A call keeps the tree of the values and conforms. -/
theorem call_conforms (h : IsTree s values t) {call : Call} (hfresh : call.Fresh s) :
    ∃ s' t', Returns (call.exec s) s' ∧ IsTree s' (valuesAfter values call) t' ∧
      call.Conforms s s' values := by
  cases call with
  | insert value new => exact insert_conforms h value hfresh
  | remove value => exact remove_conforms h value

/-! ### Runs -/

/-- The tree is strictly ordered, has the values as its items, and every next call returns,
conforms, and leads to the tree of the next values. -/
def Refines (s : State) (values : Finset ℤ) : Prop :=
  (∃ t, IsTree s values t) ∧ ∀ call : Call, call.Fresh s → ∃ s', Returns (call.exec s) s' ∧
    (∃ t, IsTree s' (valuesAfter values call) t) ∧ call.Conforms s s' values

/-- A run keeps the tree of its values. -/
theorem isTree_run {nodes : Store BSTNode} {calls : List Call}
    (hrun : Run Step ⟨nodes, none⟩ calls s) : ∃ t, IsTree s (calls.foldl valuesAfter ∅) t := by
  have hstep : ∀ (s : State) (values : Finset ℤ) (call : Call) (s' : State),
      (∃ t, IsTree s values t) → Step s call s' → ∃ t, IsTree s' (valuesAfter values call) t := by
    rintro s values call s' ⟨t, h⟩ ⟨hfresh, hreturns⟩
    obtain ⟨s₁, t', hreturns', htree, -⟩ := call_conforms h hfresh
    obtain rfl := hreturns.unique hreturns'
    exact ⟨t', htree⟩
  refine hrun.simulation hstep ⟨nil, rfl, List.nodup_nil, ?_, fun v ↦ ?_⟩
  · exact strictlyOrdered_iff.mpr List.Pairwise.nil
  · rw [items_nil]
    exact iff_of_false List.not_mem_nil (Finset.notMem_empty v)

/-- Every run from the empty tree refines the set of the values inserted and not removed since. -/
theorem run_refines {nodes : Store BSTNode} {calls : List Call}
    (hrun : Run Step ⟨nodes, none⟩ calls s) : Refines s (calls.foldl valuesAfter ∅) := by
  obtain ⟨t, htree⟩ := isTree_run hrun
  refine ⟨⟨t, htree⟩, fun call hfresh ↦ ?_⟩
  obtain ⟨s', t', hreturns, htree', hconforms⟩ := call_conforms htree hfresh
  exact ⟨s', hreturns, ⟨t', htree'⟩, hconforms⟩

/-- The run that inserts 5 into the empty tree. -/
theorem run_refines_insert :
    Refines ⟨Store.empty.put 1 ⟨5, none, none⟩, some 1⟩ {5} := by
  have hstep : Step ⟨Store.empty, none⟩ (.insert 5 (some 1))
      ⟨Store.empty.put 1 ⟨5, none, none⟩, some 1⟩ := by
    refine ⟨fun a _ ↦ rfl, 0, fun fuel hfuel ↦ ?_⟩
    obtain ⟨fuel, rfl⟩ : ∃ n, fuel = n + 1 := ⟨fuel - 1, by omega⟩
    rfl
  exact run_refines (Run.single hstep)

end Jungle.SearchTrees
