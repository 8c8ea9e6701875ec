import Jungle.KernelList.Reverse
import Mathlib.Data.List.TakeWhile

/-!
# Lists as sequences

Any number of lists share the cells. `Holds` says which sequence each of them holds: their cells make
up rings, and no cell is in two of them. What the functions do to a sequence is in terms of the
elements: `insertBefore` puts elements in front of a cell, `range` and `outside` are the elements of a
range and those outside it.
-/

set_option autoImplicit false
set_option relaxedAutoImplicit false

namespace Jungle.KernelList

open Jungle.Lib

/-! ### Sequences -/

/-- The elements put in front of a cell, or at the end if the cell is no element. -/
def insertBefore (seq : List ℕ) (before : ℕ) (elems : List ℕ) : List ℕ :=
  seq.takeWhile (· ≠ before) ++ elems ++ seq.dropWhile (· ≠ before)

/-- The elements from `first` up to `last`, without `last`. -/
def range (seq : List ℕ) (first last : ℕ) : List ℕ :=
  (seq.dropWhile (· ≠ first)).takeWhile (· ≠ last)

/-- The other elements. -/
def outside (seq : List ℕ) (first last : ℕ) : List ℕ :=
  seq.takeWhile (· ≠ first) ++ (seq.dropWhile (· ≠ first)).dropWhile (· ≠ last)

variable {seq F B mid elems : List ℕ} {t e first last : ℕ}

/-- The elements before a cell and those from it on, once the cells in front of it are known. -/
theorem split_of_concat (h : seq ++ [t] = F ++ e :: B) (he : e ∉ F) (ht : t ∉ seq) :
    seq.takeWhile (· ≠ e) = F ∧ seq.dropWhile (· ≠ e) ++ [t] = e :: B := by
  have hF : ∀ a ∈ F, decide (a ≠ e) = true := fun a ha ↦
    decide_eq_true (ne_of_mem_of_not_mem ha he)
  rcases List.eq_nil_or_concat B with rfl | ⟨B, b, rfl⟩
  · obtain ⟨rfl, hte⟩ := List.append_inj' h rfl
    obtain rfl := List.head_eq_of_cons_eq hte
    exact ⟨List.takeWhile_eq_self_iff.mpr hF, by rw [List.dropWhile_eq_nil_iff.mpr hF,
      List.nil_append]⟩
  · rw [List.concat_eq_append, ← List.cons_append, ← List.append_assoc] at h
    obtain ⟨rfl, htb⟩ := List.append_inj' h rfl
    rw [List.takeWhile_append_of_pos hF, List.dropWhile_append_of_pos hF, htb]
    simp

/-- A nonempty list has a last item. -/
theorem exists_concat (a : ℕ) (l : List ℕ) : ∃ F x, a :: l = F ++ [x] :=
  ⟨_, _, (List.dropLast_append_getLast (List.cons_ne_nil a l)).symm⟩

theorem mem_insertBefore {a : ℕ} : a ∈ insertBefore seq e elems ↔ a ∈ elems ∨ a ∈ seq := by
  have hsplit : a ∈ seq ↔ a ∈ seq.takeWhile (· ≠ e) ∨ a ∈ seq.dropWhile (· ≠ e) := by
    rw [← List.mem_append, List.takeWhile_append_dropWhile]
  rw [insertBefore, List.mem_append, List.mem_append, hsplit]
  tauto

@[simp] theorem insertBefore_nil : insertBefore seq e [] = seq := by
  rw [insertBefore, List.append_nil, List.takeWhile_append_dropWhile]

theorem insertBefore_tail (ht : t ∉ seq) : insertBefore seq t elems = seq ++ elems := by
  have hall : ∀ a ∈ seq, decide (a ≠ t) = true := fun a ha ↦
    decide_eq_true (ne_of_mem_of_not_mem ha ht)
  rw [insertBefore, List.takeWhile_eq_self_iff.mpr hall, List.dropWhile_eq_nil_iff.mpr hall,
    List.append_nil]

theorem insertBefore_first (ht : t ∉ seq) (hfirst : seq ++ [t] = first :: B) :
    insertBefore seq first elems = elems ++ seq := by
  cases seq with
  | nil =>
    obtain rfl : t = first := List.head_eq_of_cons_eq hfirst
    rw [insertBefore_tail ht, List.nil_append, List.append_nil]
  | cons a seq =>
    obtain rfl : a = first := List.head_eq_of_cons_eq hfirst
    simp [insertBefore]

/-- The cells of a range, those before it and those from its end on. -/
theorem range_of_mem (h : last ∈ (seq ++ [t]).dropWhile (· ≠ first)) (ht : t ∉ seq) : ∃ F B,
    seq ++ [t] = F ++ (range seq first last ++ last :: B) ∧
      outside seq first last ++ [t] = F ++ last :: B ∧
      (range seq first last ++ last :: B).head? = some first := by
  obtain ⟨front, back, hsplit, hfront⟩ : ∃ front back, seq ++ [t] = front ++ first :: back ∧
      first ∉ front := by
    refine List.eq_append_cons_of_mem (Decidable.byContradiction fun hfirst ↦ ?_)
    have hnil : (seq ++ [t]).dropWhile (· ≠ first) = [] := List.dropWhile_eq_nil_iff.mpr
      fun a ha ↦ decide_eq_true (ne_of_mem_of_not_mem ha hfirst)
    rw [hnil] at h
    exact List.not_mem_nil h
  obtain ⟨htake, hdrop⟩ := split_of_concat hsplit hfront ht
  have hcells : (seq ++ [t]).dropWhile (· ≠ first) = first :: back := by
    have hall : ∀ a ∈ front, decide (a ≠ first) = true := fun a ha ↦
      decide_eq_true (ne_of_mem_of_not_mem ha hfront)
    rw [hsplit, List.dropWhile_append_of_pos hall]
    simp
  rw [hcells] at h
  obtain ⟨mid, B, hmid, hlast⟩ := List.eq_append_cons_of_mem h
  have ht' : t ∉ seq.dropWhile (· ≠ first) := fun hmem ↦ ht (List.dropWhile_subset _ hmem)
  obtain ⟨htake', hdrop'⟩ := split_of_concat (hdrop.trans hmid) hlast ht'
  refine ⟨front, B, ?_, ?_, ?_⟩
  · rw [range, htake', ← hmid, hsplit]
  · rw [outside, htake, List.append_assoc, hdrop']
  · rw [range, htake', ← hmid, List.head?_cons]

theorem insertBefore_concat (h : seq ++ [t] = F ++ e :: B) (he : e ∉ F) (ht : t ∉ seq)
    (elems : List ℕ) : insertBefore seq e elems ++ [t] = F ++ (elems ++ e :: B) := by
  obtain ⟨hfront, hback⟩ := split_of_concat h he ht
  rw [insertBefore, hfront, List.append_assoc, hback, List.append_assoc]

/-! ### Lists that share the cells -/

/-- The cells of a list that holds a sequence. -/
def nodes (list : KList) (seq : List ℕ) : List ℕ := list.head :: (seq ++ [list.tail])

variable {ι : Type*} {lists : ι → KList} {σ : ι → List ℕ} {m m' : Elems} {cells : List ℕ}
  {i j : ι} {a before : ℕ}

/-- A cell is in no list. -/
def InNoList (lists : ι → KList) (σ : ι → List ℕ) (a : ℕ) : Prop :=
  ∀ i, a ∉ nodes (lists i) (σ i)

/-- The lists hold the sequences. -/
structure Holds (lists : ι → KList) (m : Elems) (σ : ι → List ℕ) : Prop where
  ring : ∀ i, Ring m (nodes (lists i) (σ i))
  nodup : ∀ i, (nodes (lists i) (σ i)).Nodup
  disjoint : ∀ i j, i ≠ j → (nodes (lists i) (σ i)).Disjoint (nodes (lists j) (σ j))

theorem Holds.tail_not_mem (h : Holds lists m σ) : (lists i).tail ∉ σ i := by
  have hnodup := h.nodup i
  rw [nodes] at hnodup
  grind

/-- A cell to insert in front of, with its list split there. -/
theorem Holds.split (h : Holds lists m σ) (hbefore : before ∈ σ i ++ [(lists i).tail]) :
    ∃ F x B, nodes (lists i) (σ i) = F ++ x :: before :: B ∧ ∀ elems,
      nodes (lists i) (insertBefore (σ i) before elems) = F ++ x :: (elems ++ before :: B) := by
  obtain ⟨front, B, hsplit, hfront⟩ := List.eq_append_cons_of_mem hbefore
  obtain ⟨F, x, hx⟩ := exists_concat (lists i).head front
  refine ⟨F, x, B, ?_, fun elems ↦ ?_⟩
  · rw [nodes, hsplit, ← List.cons_append, hx, List.append_assoc, List.singleton_append]
  · rw [nodes, insertBefore_concat hsplit hfront h.tail_not_mem, ← List.cons_append, hx, List.append_assoc,
      List.singleton_append]

/-- One list changes: its new elements were in no list, and only its cells and cells of no list are
written. -/
theorem Holds.update [DecidableEq ι] (h : Holds lists m σ) (hring : Ring m' (nodes (lists i) seq))
    (hnodup : (nodes (lists i) seq).Nodup) (hnew : ∀ a ∈ seq, a ∈ σ i ∨ InNoList lists σ a)
    (hedits : Edits m m' cells)
    (hcells : ∀ a ∈ cells, a ∈ nodes (lists i) (σ i) ∨ InNoList lists σ a) :
    Holds lists m' (Function.update σ i seq) := by
  have hother : ∀ j, j ≠ i → Ring m' (nodes (lists j) (σ j)) := by
    refine fun j hj ↦ (h.ring j).frame fun a ha ↦ hedits.same a fun hmem ↦ ?_
    rcases hcells a hmem with hown | hout
    · exact h.disjoint j i hj ha hown
    · exact hout j ha
  have hapart : ∀ j, j ≠ i → (nodes (lists i) seq).Disjoint (nodes (lists j) (σ j)) := by
    intro j hj a ha haj
    have hcase : a ∈ nodes (lists i) (σ i) ∨ InNoList lists σ a := by
      simp only [nodes, List.mem_cons, List.mem_append, List.not_mem_nil, or_false] at ha ⊢
      rcases ha with rfl | ha | rfl
      · exact Or.inl (Or.inl rfl)
      · exact (hnew a ha).imp_left fun hold ↦ Or.inr (Or.inl hold)
      · exact Or.inl (Or.inr (Or.inr rfl))
    rcases hcase with hown | hout
    · exact h.disjoint i j hj.symm hown haj
    · exact hout j haj
  refine ⟨fun j ↦ ?_, fun j ↦ ?_, fun j k hjk ↦ ?_⟩
  · by_cases hj : j = i
    · subst hj
      rwa [Function.update_self]
    · rw [Function.update_of_ne hj]
      exact hother j hj
  · by_cases hj : j = i
    · subst hj
      rwa [Function.update_self]
    · rw [Function.update_of_ne hj]
      exact h.nodup j
  · by_cases hj : j = i
    · subst hj
      rw [Function.update_self, Function.update_of_ne hjk.symm]
      exact hapart k hjk.symm
    · rw [Function.update_of_ne hj]
      by_cases hk : k = i
      · subst hk
        rw [Function.update_self]
        exact fun a haj ha ↦ hapart j hj ha haj
      · rw [Function.update_of_ne hk]
        exact h.disjoint j k hjk

end Jungle.KernelList
