import Jungle.LinkedLists.Sequence
import Mathlib.Order.Lattice.Nat

/-!
# Two lists and the allocator

`Pair` says that two headers lead through two lists without a common node. Functions that move items
between lists allocate a node for each, so `malloc` is a function of the memory here; `Allocates`
is what is assumed of it.
-/

set_option autoImplicit false
set_option relaxedAutoImplicit false

namespace Jungle.LinkedLists

open Jungle.Lib

/-- `malloc` returns the address of no node as long as there is one. -/
def Allocates (malloc : Memory → ℕ) : Prop :=
  ∀ m : Memory, (∃ a, m.nodes a = none) → m.nodes (malloc m) = none

/-- Two lists without a common node. -/
structure Pair (m : Memory) (p q : ℕ) (entries others : List (ℕ × ℤ)) : Prop where
  first : IsList m p entries
  second : IsList m q others
  headers : p ≠ q
  nodes : ∀ e ∈ entries, ∀ e' ∈ others, e.1 ≠ e'.1

variable {malloc : Memory → ℕ} {m m' : Memory} {p q a b : ℕ} {v w : ℤ}
  {entries others front rest : List (ℕ × ℤ)}

/-- An allocator that takes the first free address. -/
noncomputable def firstFree (m : Memory) : ℕ := sInf {a | m.nodes a = none}

theorem allocates_firstFree : Allocates firstFree := fun _ hfree ↦ Nat.sInf_mem hfree

/-- A list depends on its header and its nodes. -/
theorem IsList.frame (h : IsList m p entries) (hlists : m'.lists p = m.lists p)
    (hnodes : ∀ e ∈ entries, m'.nodes e.1 = m.nodes e.1) : IsList m' p entries := by
  obtain ⟨l, hl, hchain, hsize⟩ := h
  exact ⟨l, hlists.trans hl, hchain.frame hnodes, hsize⟩

/-- An entry of a list is a node that leads to the next entry. -/
theorem IsList.exists_node (h : IsList m p (front ++ (a, v) :: rest)) :
    ∃ node, m.nodes a = some node ∧ node.item = v ∧ node.next = (rest.map Prod.fst).head? := by
  obtain ⟨l, -, hchain, -⟩ := h
  exact hchain.exists_cell

/-- A node of a list is allocated. -/
theorem IsList.isSome (h : IsList m p entries) {e : ℕ × ℤ} (he : e ∈ entries) :
    (m.nodes e.1).isSome := by
  obtain ⟨l, -, hchain, -⟩ := h
  obtain ⟨node, hnode, -⟩ := hchain.allocated he
  exact Option.isSome_iff_exists.mpr ⟨node, hnode⟩

/-- A free address is not that of a node of a list. -/
theorem IsList.not_mem_of_free (h : IsList m p entries) (hfree : m.nodes a = none) :
    a ∉ entries.map Prod.fst := fun hmem ↦ by
  obtain ⟨e, he, rfl⟩ := List.mem_map.mp hmem
  have hsome := h.isSome he
  rw [hfree] at hsome
  exact absurd hsome Bool.false_ne_true

/-- The addresses of the one list are not those of the other one. -/
theorem Pair.not_mem (h : Pair m p q entries others) {e : ℕ × ℤ} (he : e ∈ others) :
    e.1 ∉ entries.map Prod.fst := fun hmem ↦ by
  obtain ⟨e', he', heq⟩ := List.mem_map.mp hmem
  exact h.nodes e' he' e he heq

/-- Removing the head frees its node. -/
theorem removeNode_head (h : IsList m q ((b, w) :: others))
    (hsmall : (((b, w) :: others).length : ℤ) ≤ intMax) :
    ∃ m', removeNode m (some q) 0 = some (0, m') ∧ IsList m' q others ∧
      OnlyTouches q (((b, w) :: others).map Prod.fst) m m' ∧ m'.nodes b = none := by
  have hindex : (0 : ℤ) ≤ 0 ∧ (0 : ℤ) < ((b, w) :: others).length := ⟨Int.le_refl 0, by simp⟩
  obtain ⟨m', hremove, hlist, htouch⟩ := removeNode_eq_of_mem h hsmall hindex
  refine ⟨m', hremove, hlist, htouch, ?_⟩
  obtain ⟨l, hl, ⟨hhead, node, hnode, -, -⟩, hsize⟩ := h
  have hguard : ¬((0 : ℤ) < 0 ∨ 0 ≥ l.size) := by
    rw [hsize, List.length_cons]
    omega
  rw [removeNode_eq_of_first hl hguard hhead hnode] at hremove
  obtain rfl := congrArg Prod.snd (Option.some.inj hremove)
  exact Store.free_self ..

theorem Pair.symm (h : Pair m p q entries others) : Pair m q p others entries :=
  ⟨h.second, h.first, h.headers.symm, fun e he e' he' ↦ (h.nodes e' he' e he).symm⟩

end Jungle.LinkedLists
