import Jungle.KernelList.Runs

/-!
# Families of lists

The functions that read a list of a family, taking some lists out of a family, putting two families
together, and initialising the lists of a family while others share the cells.
-/

set_option autoImplicit false
set_option relaxedAutoImplicit false

namespace Jungle.KernelList

open Jungle.Lib

variable {ι κ : Type*} {lists : ι → KList} {lists' : κ → KList} {σ : ι → List ℕ} {σ' : κ → List ℕ}
  {m m' : Elems}

/-- Cells that agree on the lists. -/
theorem Holds.frame (h : Holds lists m σ)
    (hsame : ∀ i, ∀ a ∈ nodes (lists i) (σ i), m' a = m a) : Holds lists m' σ where
  ring i := (h.ring i).frame (hsame i)
  nodup := h.nodup
  disjoint := h.disjoint

theorem Ring.listBegin_eq {list : KList} {seq : List ℕ} (h : Ring m (nodes list seq)) :
    listBegin m list = some (seq ++ [list.tail]).head? := by
  obtain ⟨y, back, hy⟩ : ∃ y back, seq ++ [list.tail] = y :: back :=
    List.exists_cons_of_ne_nil (by simp)
  have hring : Ring m ([] ++ list.head :: y :: back) := hy ▸ h
  rw [listBegin, hring.next_eq, hy, List.head?_cons]

/-- `list_begin` -/
theorem Holds.listBegin_eq (h : Holds lists m σ) (i : ι) :
    listBegin m (lists i) = some (σ i ++ [(lists i).tail]).head? :=
  (h.ring i).listBegin_eq

/-- `list_next` of an element -/
theorem Holds.listNext_eq (h : Holds lists m σ) {F B : List ℕ} {x : ℕ} {i : ι}
    (hσ : σ i = F ++ x :: B) : listNext m x = some (B ++ [(lists i).tail]).head? := by
  obtain ⟨y, back, hy⟩ : ∃ y back, B ++ [(lists i).tail] = y :: back :=
    List.exists_cons_of_ne_nil (by simp)
  have hnodes : nodes (lists i) (σ i) = ((lists i).head :: F) ++ x :: y :: back := by
    rw [nodes, hσ, ← hy, List.append_assoc, List.cons_append, List.cons_append]
  have hring := h.ring i
  rw [hnodes] at hring
  rw [hring.listNext_eq, hy, List.head?_cons]

/-- `list_empty` -/
theorem Holds.listEmpty_eq (h : Holds lists m σ) (i : ι) :
    listEmpty m (lists i) = some (decide (σ i = [])) := by
  cases hσ : σ i with
  | nil => simp [listEmpty, h.listBegin_eq, hσ, listEnd]
  | cons e B =>
    have hne : e ≠ (lists i).tail := by
      rintro rfl
      exact h.tail_not_mem (hσ ▸ List.mem_cons_self)
    simp [listEmpty, h.listBegin_eq, hσ, listEnd, hne]

/-- An element that is taken out of its list is in no list. -/
theorem Holds.inNoList [DecidableEq ι] (h : Holds lists m σ) {F B : List ℕ} {x : ℕ} {i : ι}
    (hσ : σ i = F ++ x :: B) : InNoList lists (Function.update σ i (F ++ B)) x := by
  intro j hj
  by_cases hji : j = i
  · subst hji
    have hnodup := h.nodup j
    rw [Function.update_self] at hj
    simp only [nodes, hσ] at hj hnodup
    grind
  · rw [Function.update_of_ne hji] at hj
    refine h.disjoint j i hji hj ?_
    simp [nodes, hσ]

/-- Some of the lists. -/
theorem Holds.comp (h : Holds lists m σ) {f : κ → ι} (hf : Function.Injective f) :
    Holds (fun k ↦ lists (f k)) m fun k ↦ σ (f k) where
  ring k := h.ring (f k)
  nodup k := h.nodup (f k)
  disjoint j k hjk := h.disjoint (f j) (f k) (hf.ne hjk)

/-- Two families of lists that have no cells in common. -/
theorem Holds.sum (h : Holds lists m σ) (h' : Holds lists' m σ')
    (hdisjoint : ∀ i k, (nodes (lists i) (σ i)).Disjoint (nodes (lists' k) (σ' k))) :
    Holds (Sum.elim lists lists') m (Sum.elim σ σ') where
  ring
    | .inl i => h.ring i
    | .inr k => h'.ring k
  nodup
    | .inl i => h.nodup i
    | .inr k => h'.nodup k
  disjoint
    | .inl i, .inl j, hne => h.disjoint i j fun heq ↦ hne (congrArg Sum.inl heq)
    | .inl i, .inr k, _ => hdisjoint i k
    | .inr k, .inl i, _ => fun _ ha ha' ↦ hdisjoint i k ha' ha
    | .inr j, .inr k, hne => h'.disjoint j k fun heq ↦ hne (congrArg Sum.inr heq)

/-- The heads and the tails of lists. -/
def headers (lists : ι → KList) (order : List ι) : List ℕ :=
  order.flatMap fun i ↦ [(lists i).head, (lists i).tail]

/-- Initialising lists makes them empty and changes their heads and tails only. -/
theorem initLists_edits (lists : ι → KList) (order : List ι)
    (hallocated : ∀ i ∈ order, (m (lists i).head).isSome ∧ (m (lists i).tail).isSome)
    (hdistinct : ∀ i ∈ order, (lists i).head ≠ (lists i).tail)
    (hapart : order.Pairwise fun i j ↦
      [(lists i).head, (lists i).tail].Disjoint [(lists j).head, (lists j).tail]) :
    ∃ m', initLists lists m order = some m' ∧
      (∀ i ∈ order, Ring m' (nodes (lists i) [])) ∧ Edits m m' (headers lists order) := by
  induction order generalizing m with
  | nil => exact ⟨m, rfl, nofun, fun _ _ ↦ rfl, fun _ ↦ rfl⟩
  | cons i order ih =>
    obtain ⟨hfirst, hrest⟩ := List.pairwise_cons.mp hapart
    have hi := hallocated i List.mem_cons_self
    obtain ⟨m₁, hinit, hring, hedits⟩ :=
      listInit_ring hi.1 hi.2 (hdistinct i List.mem_cons_self)
    have hallocated₁ : ∀ j ∈ order, (m₁ (lists j).head).isSome ∧ (m₁ (lists j).tail).isSome := by
      intro j hj
      rw [hedits.allocated, hedits.allocated]
      exact hallocated j (List.mem_cons_of_mem i hj)
    obtain ⟨m', hinits, hrings, hedits'⟩ := ih hallocated₁
      (fun j hj ↦ hdistinct j (List.mem_cons_of_mem i hj)) hrest
    refine ⟨m', ?_, fun j hj ↦ ?_, hedits.trans hedits'⟩
    · rw [initLists, List.foldlM_cons, hinit]
      exact hinits
    · rcases List.mem_cons.mp hj with rfl | hj
      · refine hring.frame fun a ha ↦ hedits'.same a fun hmem ↦ ?_
        obtain ⟨k, hk, hak⟩ := List.mem_flatMap.mp hmem
        exact hfirst k hk ha hak
      · exact hrings j hj

end Jungle.KernelList
