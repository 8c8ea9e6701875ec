import Jungle.LinkedLists.Sequence

/-!
# Runs of the linked list functions

A run calls `insertNode`, `removeNode` and `findNode` on one list, starting from the empty one, and
`malloc` may return any address that holds no node. `Refines` says that a state reached by a run
holds the sequence the calls describe and that the next call does to it what its name says.
`guarded_run_refines` proves it for the runs whose insertions `Call.Guarded` admits.
-/

set_option autoImplicit false
set_option relaxedAutoImplicit false

namespace Jungle.LinkedLists

open Jungle.Lib

/-- A call on the list; an insertion carries the address `malloc` returns. -/
inductive Call
  | insert (index value : ℤ) (new : ℕ)
  | remove (index : ℤ)
  | find (index : ℤ)

/-- The memory after a call. -/
def Call.exec (p : ℕ) (m : Memory) : Call → Option Memory
  | .insert index value new => (insertNode m (some p) index value new).map Prod.snd
  | .remove index => (removeNode m (some p) index).map Prod.snd
  | .find index => (findNode m (some p) index).map fun _ ↦ m

/-- The address `malloc` returns holds no node. -/
def Call.Fresh (m : Memory) : Call → Prop
  | .insert _ _ new => m.nodes new = none
  | _ => True

/-- The insertions whose guard decides as the rest of `insertNode` does: not index 1 into an empty
list, and nothing into a list of `INT_MAX` nodes. -/
def Call.Guarded (m : Memory) (p : ℕ) : Call → Prop
  | .insert index _ _ => ∀ l, m.lists p = some l →
      index < 0 ∨ l.size < intMax ∧ ¬(l.size = 0 ∧ index = 1)
  | _ => True

/-- One call on the list. -/
def Step (p : ℕ) (m : Memory) (call : Call) (m' : Memory) : Prop :=
  call.Fresh m ∧ call.exec p m = some m'

/-- One call that `Call.Guarded` admits. -/
def GuardedStep (p : ℕ) (m : Memory) (call : Call) (m' : Memory) : Prop :=
  Step p m call m' ∧ call.Guarded m p

/-- What a call makes of the sequence of items. -/
def applyCall (items : List ℤ) : Call → List ℤ
  | .insert index value _ =>
    if 0 ≤ index ∧ index ≤ items.length then items.insertIdx index.toNat value else items
  | .remove index =>
    if 0 ≤ index ∧ index < items.length then items.eraseIdx index.toNat else items
  | .find _ => items

/-- `insertNode` returns 0 in range, having inserted the item, and `-1` out of range, having
changed nothing. -/
def InsertConforms (m : Memory) (p : ℕ) (entries : List (ℕ × ℤ)) (index value : ℤ) (new : ℕ) :
    Prop :=
  ∃ code m', insertNode m (some p) index value new = some (code, m') ∧
    (code = 0 ↔ 0 ≤ index ∧ index ≤ entries.length) ∧
    (code = 0 → IsList m' p (entries.insertIdx index.toNat (new, value))) ∧
    (code ≠ 0 → code = -1 ∧ m' = m)

/-- `removeNode` returns 0 in range, having removed the item at the index, and `-1` out of range,
having changed nothing. -/
def RemoveConforms (m : Memory) (p : ℕ) (entries : List (ℕ × ℤ)) (index : ℤ) : Prop :=
  ∃ code m', removeNode m (some p) index = some (code, m') ∧
    (code = 0 ↔ 0 ≤ index ∧ index < entries.length) ∧
    (code = 0 → IsList m' p (entries.eraseIdx index.toNat)) ∧
    (code ≠ 0 → code = -1 ∧ m' = m)

/-- After the calls the memory holds the sequence they describe, and the next call, if allowed,
does to it what its name says. -/
def Refines (allowed : Call → Prop) (m : Memory) (p : ℕ) (calls : List Call) : Prop :=
  ∃ entries, IsList m p entries ∧ entries.map Prod.snd = calls.foldl applyCall [] ∧
    (∀ index value new, (Call.insert index value new).Fresh m →
      allowed (.insert index value new) → InsertConforms m p entries index value new) ∧
    (∀ index, RemoveConforms m p entries index) ∧
    ∀ index, findNode m (some p) index = some (nodeAt entries index)

variable {m m' : Memory} {p : ℕ} {entries : List (ℕ × ℤ)}

/-- An insertion that `Call.Guarded` admits conforms. -/
theorem insertConforms (h : IsList m p entries) {index value : ℤ} {new : ℕ}
    (hfresh : (Call.insert index value new).Fresh m)
    (hguard : (Call.insert index value new).Guarded m p) :
    InsertConforms m p entries index value new := by
  obtain ⟨l, hl, -, hsize⟩ := id h
  rcases hguard l hl with hneg | ⟨hroom, hslip⟩
  · refine ⟨-1, m, insertNode_eq_of_guard hl (Or.inl hneg) value new, ?_, ?_, fun _ ↦ ⟨rfl, rfl⟩⟩
    · omega
    · omega
  · rw [hsize] at hroom
    by_cases hindex : 0 ≤ index ∧ index ≤ entries.length
    · obtain ⟨m', hcall, hlist, -⟩ := insertNode_eq_of_mem h hroom hindex value hfresh
      exact ⟨0, m', hcall, iff_of_true rfl hindex, fun _ ↦ hlist, fun hne ↦ absurd rfl hne⟩
    · have hslip' : ¬(entries = [] ∧ index = 1) := by
        rintro ⟨rfl, rfl⟩
        exact hslip ⟨hsize, rfl⟩
      have hcall := insertNode_eq_of_not_mem h hroom hindex hslip' value new
      exact ⟨-1, m, hcall, iff_of_false (by decide) hindex, fun hzero ↦ absurd hzero (by decide),
        fun _ ↦ ⟨rfl, rfl⟩⟩

/-- Every removal conforms. -/
theorem removeConforms (h : IsList m p entries) (hroom : (entries.length : ℤ) ≤ intMax)
    (index : ℤ) : RemoveConforms m p entries index := by
  by_cases hindex : 0 ≤ index ∧ index < entries.length
  · obtain ⟨m', hcall, hlist, -⟩ := removeNode_eq_of_mem h hroom hindex
    exact ⟨0, m', hcall, iff_of_true rfl hindex, fun _ ↦ hlist, fun hne ↦ absurd rfl hne⟩
  · exact ⟨-1, m, removeNode_eq_of_not_mem h hindex, iff_of_false (by decide) hindex,
      fun hzero ↦ absurd hzero (by decide), fun _ ↦ ⟨rfl, rfl⟩⟩

/-- The list holds the items and its counter has not wrapped. -/
def Holds (p : ℕ) (m : Memory) (items : List ℤ) : Prop :=
  ∃ entries, IsList m p entries ∧ entries.map Prod.snd = items ∧
    (entries.length : ℤ) ≤ intMax

/-- An insertion that `Call.Guarded` admits makes of the items what `applyCall` says. -/
theorem holds_insert {items : List ℤ} (h : Holds p m items) {index value : ℤ} {new : ℕ}
    (hfresh : (Call.insert index value new).Fresh m)
    (hguard : (Call.insert index value new).Guarded m p)
    (hexec : (Call.insert index value new).exec p m = some m') :
    Holds p m' (applyCall items (.insert index value new)) := by
  obtain ⟨entries, hlist, rfl, hbound⟩ := h
  obtain ⟨l, hl, -, hsize⟩ := id hlist
  obtain ⟨code, m₁, hcall, hcode, hzero, hother⟩ := insertConforms hlist hfresh hguard
  simp only [Call.exec, hcall, Option.map_some, Option.some.injEq] at hexec
  subst hexec
  rw [applyCall, List.length_map]
  by_cases hindex : 0 ≤ index ∧ index ≤ entries.length
  · rw [if_pos hindex]
    have hroom : (entries.length : ℤ) < intMax := by
      rcases hguard l hl with hneg | ⟨hroom, -⟩ <;> omega
    refine ⟨_, hzero (hcode.mpr hindex), List.map_insertIdx .., ?_⟩
    rw [List.length_insertIdx_of_le_length (by omega)]
    omega
  · rw [if_neg hindex]
    obtain ⟨-, rfl⟩ := hother fun h ↦ hindex (hcode.mp h)
    exact ⟨entries, hlist, rfl, hbound⟩

/-- A removal makes of the items what `applyCall` says. -/
theorem holds_remove {items : List ℤ} (h : Holds p m items) {index : ℤ}
    (hexec : (Call.remove index).exec p m = some m') :
    Holds p m' (applyCall items (.remove index)) := by
  obtain ⟨entries, hlist, rfl, hbound⟩ := h
  obtain ⟨code, m₁, hcall, hcode, hzero, hother⟩ := removeConforms hlist hbound index
  simp only [Call.exec, hcall, Option.map_some, Option.some.injEq] at hexec
  subst hexec
  rw [applyCall, List.length_map]
  by_cases hindex : 0 ≤ index ∧ index < entries.length
  · rw [if_pos hindex]
    refine ⟨_, hzero (hcode.mpr hindex), (List.eraseIdx_map ..).symm, ?_⟩
    have hle := List.length_eraseIdx_le entries index.toNat
    omega
  · rw [if_neg hindex]
    obtain ⟨-, rfl⟩ := hother fun h ↦ hindex (hcode.mp h)
    exact ⟨entries, hlist, rfl, hbound⟩

/-- Every call that `Call.Guarded` admits makes of the items what `applyCall` says. -/
theorem holds_step {items : List ℤ} {call : Call} (h : Holds p m items)
    (hstep : GuardedStep p m call m') : Holds p m' (applyCall items call) := by
  obtain ⟨⟨hfresh, hexec⟩, hguard⟩ := hstep
  cases call with
  | insert index value new => exact holds_insert h hfresh hguard hexec
  | remove index => exact holds_remove h hexec
  | find index =>
    obtain ⟨entries, hlist, -⟩ := id h
    simp only [Call.exec, findNode_eq hlist, Option.map_some, Option.some.injEq] at hexec
    subst hexec
    exact h

theorem holds_empty (hempty : m.lists p = some ⟨0, none⟩) : Holds p m [] :=
  ⟨[], ⟨_, hempty, rfl, rfl⟩, rfl, by decide⟩

/-- Runs from the empty list whose insertions `Call.Guarded` admits refine the sequence they
describe. -/
theorem guarded_run_refines {m₀ : Memory} {calls : List Call}
    (hempty : m₀.lists p = some ⟨0, none⟩) (hrun : Run (GuardedStep p) m₀ calls m) :
    Refines (Call.Guarded m p) m p calls := by
  have hkeep : ∀ (s : Memory) (items : List ℤ) (call : Call) (t : Memory), Holds p s items →
      GuardedStep p s call t → Holds p t (applyCall items call) :=
    fun _ _ _ _ hholds hstep ↦ holds_step hholds hstep
  obtain ⟨entries, hlist, hitems, hbound⟩ := hrun.simulation hkeep (holds_empty hempty)
  exact ⟨entries, hlist, hitems, fun _ _ _ hfresh hguard ↦ insertConforms hlist hfresh hguard,
    removeConforms hlist hbound, findNode_eq hlist⟩

/-- The item 7 inserted at the head, with the node at address 1. -/
theorem guarded_run_refines_insert_head :
    Refines (Call.Guarded ⟨emptyMemory.lists.put 0 ⟨1, some 1⟩, emptyMemory.nodes.put 1 ⟨7, none⟩⟩
      0) ⟨emptyMemory.lists.put 0 ⟨1, some 1⟩, emptyMemory.nodes.put 1 ⟨7, none⟩⟩ 0
      [.insert 0 7 1] := by
  have hguard : (Call.insert 0 7 1).Guarded emptyMemory 0 := by
    intro l hl
    obtain rfl := Option.some.inj hl
    exact Or.inr (by decide)
  have hstep : GuardedStep 0 emptyMemory (.insert 0 7 1)
      ⟨emptyMemory.lists.put 0 ⟨1, some 1⟩, emptyMemory.nodes.put 1 ⟨7, none⟩⟩ :=
    ⟨⟨rfl, rfl⟩, hguard⟩
  exact guarded_run_refines rfl (Run.single hstep)

/-- Not every run refines the sequence it describes: the empty list takes an item at index 1. -/
theorem not_run_refines : ¬∀ (p : ℕ) (m₀ m : Memory) (calls : List Call),
    m₀.lists p = some ⟨0, none⟩ → Run (Step p) m₀ calls m →
      Refines (fun _ ↦ True) m p calls := by
  intro h
  obtain ⟨entries, hlist, hitems, hinsert, -⟩ :=
    h 0 emptyMemory emptyMemory [] rfl (Run.nil _)
  obtain rfl : entries = [] := List.map_eq_nil_iff.mp hitems
  obtain ⟨code, m', hcall, hcode, -, -⟩ := hinsert 1 7 1 rfl trivial
  obtain rfl : (0 : ℤ) = code := by
    have heval : insertNode emptyMemory (some 0) 1 7 1 = some (0, _) := rfl
    rw [heval] at hcall
    exact congrArg Prod.fst (Option.some.inj hcall)
  exact absurd (hcode.mp rfl) (by decide)

end Jungle.LinkedLists
