import Jungle.LinkedLists.TwoLists
import Mathlib.Data.Set.Finite.Basic

/-!
# Stacks

The operations on stacks of `Data-Structures/tests/stack.c`. A `Stack` is the header of a list whose
head is the top. `push_eq` and `pop_eq` say what they do to a list, `Pair.push` and `Pair.pop` what
they do to one of two lists without a common node; nodes that are free stay free unless they are
allocated.
-/

set_option autoImplicit false
set_option relaxedAutoImplicit false

namespace Jungle.LinkedLists

open Jungle.Lib

/-- `MIN_INT` -/
def minInt : ℤ := -1000

/-- `push(s, item)`; `new` is the address of the new node. -/
def push (m : Memory) (s : ℕ) (item : ℤ) (new : ℕ) : Option Memory :=
  (insertNode m (some s) 0 item new).map Prod.snd

/-- `pop(s)`: the item and the memory. -/
def pop (m : Memory) (s : ℕ) : Option (ℤ × Memory) := do
  match (← m.lists s).head with
  | some head =>
    let item := (← m.nodes head).item
    let (_, m) ← removeNode m (some s) 0
    return (item, m)
  | none => return (minInt, m)

/-- `peek(s)` -/
def peek (m : Memory) (s : ℕ) : Option ℤ := do
  let head ← (← m.lists s).head
  return (← m.nodes head).item

/-- `isEmptyStack(s)` -/
def isEmptyStack (m : Memory) (s : ℕ) : Option Bool := do
  return (← m.lists s).size = 0

variable {malloc : Memory → ℕ} {m m' : Memory} {p q a : ℕ} {v : ℤ} {entries others : List (ℕ × ℤ)}

theorem isEmptyStack_eq (h : IsList m p entries) :
    isEmptyStack m p = some (decide (entries = [])) := by
  obtain ⟨l, hl, -, hsize⟩ := h
  have hempty : l.size = 0 ↔ entries = [] := by
    rw [hsize, ← List.length_eq_zero_iff]
    exact Int.natCast_eq_zero
  simp only [isEmptyStack, hl, Option.bind_eq_bind, Option.bind_some, Option.pure_def, hempty]

theorem peek_eq (h : IsList m p ((a, v) :: entries)) : peek m p = some v := by
  obtain ⟨l, hl, ⟨hhead, node, hnode, rfl, -⟩, -⟩ := h
  simp only [peek, hl, hhead, hnode, Option.bind_eq_bind, Option.bind_some, Option.pure_def]

/-- `push` puts an item in front. -/
theorem push_eq (h : IsList m p entries) (hroom : (entries.length : ℤ) < intMax) (v : ℤ)
    (hnew : m.nodes a = none) :
    ∃ m', push m p v a = some m' ∧ IsList m' p ((a, v) :: entries) ∧
      OnlyTouches p (a :: entries.map Prod.fst) m m' := by
  have hindex : (0 : ℤ) ≤ 0 ∧ (0 : ℤ) ≤ entries.length := ⟨Int.le_refl 0, Int.natCast_nonneg _⟩
  obtain ⟨m', hinsert, hlist, htouch⟩ := insertNode_eq_of_mem h hroom hindex v hnew
  refine ⟨m', ?_, hlist, htouch⟩
  rw [push, hinsert]
  rfl

/-- `pop` takes the first item. -/
theorem pop_eq (h : IsList m p ((a, v) :: entries))
    (hsmall : (((a, v) :: entries).length : ℤ) ≤ intMax) :
    ∃ m', pop m p = some (v, m') ∧ IsList m' p entries ∧
      OnlyTouches p (((a, v) :: entries).map Prod.fst) m m' ∧ m'.nodes a = none := by
  obtain ⟨m', hremove, hrest⟩ := removeNode_head h hsmall
  obtain ⟨l, hl, ⟨hhead, node, hnode, rfl, -⟩, -⟩ := h
  refine ⟨m', ?_, hrest⟩
  simp only [pop, hl, hhead, hnode, hremove, Option.bind_eq_bind, Option.bind_some,
    Option.pure_def]

/-! ### Free nodes -/

/-- Free nodes but for one stay free. -/
def StaysFree (exception : Option ℕ) (m m' : Memory) : Prop :=
  ∀ c, some c ≠ exception → m.nodes c = none → m'.nodes c = none

/-- A call that touches nodes of a list keeps the free nodes. -/
theorem OnlyTouches.staysFree (h : IsList m p entries)
    (htouch : OnlyTouches q (entries.map Prod.fst) m m') : StaysFree none m m' := by
  intro c _ hc
  rw [htouch.2 c (h.not_mem_of_free hc), hc]

/-- A call that touches nodes of a list and a new one keeps the other free nodes. -/
theorem OnlyTouches.staysFree_cons (h : IsList m p entries)
    (htouch : OnlyTouches q (a :: entries.map Prod.fst) m m') : StaysFree (some a) m m' := by
  intro c hne hc
  rw [htouch.2 c fun hmem ↦ ?_, hc]
  rcases List.mem_cons.mp hmem with rfl | hmem
  · exact hne rfl
  · exact h.not_mem_of_free hc hmem

/-- Infinitely many nodes are free. -/
def Spacious (m : Memory) : Prop := {a | m.nodes a = none}.Infinite

theorem StaysFree.spacious {exception : Option ℕ} (h : StaysFree exception m m')
    (hm : Spacious m) : Spacious m' := by
  have hfinite : {a | some a = exception}.Finite := by
    refine Set.Subsingleton.finite fun a ha b hb ↦ ?_
    exact Option.some.inj (Eq.trans ha (Eq.symm hb))
  refine (hm.sdiff hfinite).mono ?_
  rintro a ⟨ha, hne⟩
  exact h a hne ha

/-! ### Two stacks -/

/-- A call that touches one of two lists leaves the other one alone. -/
theorem IsList.untouched {addresses : List ℕ} (h : IsList m q others) (hpq : p ≠ q)
    (htouch : OnlyTouches p addresses m m') (hapart : ∀ e ∈ others, e.1 ∉ addresses) :
    IsList m' q others :=
  h.frame (htouch.1 q hpq.symm) fun e he ↦ htouch.2 e.1 (hapart e he)

/-- `pop` on one of two stacks. -/
theorem Pair.pop (h : Pair m p q ((a, v) :: entries) others)
    (hsmall : (((a, v) :: entries).length : ℤ) ≤ intMax) :
    ∃ m', pop m p = some (v, m') ∧ Pair m' p q entries others ∧ m'.nodes a = none ∧
      StaysFree none m m' := by
  obtain ⟨m', hpop, hlist, htouch, hfree⟩ := pop_eq h.first hsmall
  have hother : IsList m' q others := h.second.untouched h.headers htouch fun e he ↦ h.not_mem he
  exact ⟨m', hpop, ⟨hlist, hother, h.headers, fun e he ↦ h.nodes e (List.mem_cons_of_mem _ he)⟩,
    hfree, htouch.staysFree h.first⟩

/-- `push` on one of two stacks. -/
theorem Pair.push (hmalloc : Allocates malloc) (hfree : ∃ a, m.nodes a = none)
    (h : Pair m p q entries others) (hroom : (entries.length : ℤ) < intMax) (v : ℤ) :
    ∃ a m', push m p v (malloc m) = some m' ∧ Pair m' p q ((a, v) :: entries) others ∧
      StaysFree (some a) m m' := by
  have hnew : m.nodes (malloc m) = none := hmalloc m hfree
  obtain ⟨m', hpush, hlist, htouch⟩ := push_eq h.first hroom v hnew
  have hfresh : ∀ e ∈ others, e.1 ≠ malloc m := fun e he heq ↦
    h.second.not_mem_of_free hnew (heq ▸ List.mem_map_of_mem he)
  have hother : IsList m' q others := h.second.untouched h.headers htouch fun e he hmem ↦
    (List.mem_cons.mp hmem).elim (hfresh e he) (h.not_mem he)
  refine ⟨malloc m, m', hpush, ⟨hlist, hother, h.headers, fun e he e' he' ↦ ?_⟩,
    htouch.staysFree_cons h.first⟩
  rcases List.mem_cons.mp he with rfl | he
  · exact (hfresh e' he').symm
  · exact h.nodes e he e' he'

end Jungle.LinkedLists
