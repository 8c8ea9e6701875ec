import Jungle.KernelList.Basic
import Jungle.Lib.Links

/-!
# Rings of cells

The cells of a list, from its head to its tail, are linked both ways and end in null pointers
(`Ring`). Cutting a range of cells out of a ring and pasting one in are what the functions of the
library do to the cells.
-/

set_option autoImplicit false
set_option relaxedAutoImplicit false

namespace Jungle.KernelList

open Jungle.Lib

/-- The cell after a cell. -/
def after (m : Elems) (a : ℕ) : Option ℕ := (m a).bind ListElem.next

/-- The cell before a cell. -/
def before (m : Elems) (a : ℕ) : Option ℕ := (m a).bind ListElem.prev

/-- Linked cells that end in null pointers. -/
structure Ring (m : Elems) (nodes : List ℕ) : Prop where
  links : Links (after m) (before m) nodes
  first : ∀ a, nodes.head? = some a → prev m a = some none
  last : ∀ a, nodes.getLast? = some a → next m a = some none

variable {m m' : Elems} {F B mid nodes : List ℕ} {a b x y f z e : ℕ} {p : Option ℕ}

theorem next_of_after (h : after m a = some b) : next m a = some (some b) := by
  obtain ⟨c, hc, hnext⟩ := Option.bind_eq_some_iff.mp h
  rw [next, hc, Option.map_some, hnext]

theorem prev_of_before (h : before m a = some b) : prev m a = some (some b) := by
  obtain ⟨c, hc, hprev⟩ := Option.bind_eq_some_iff.mp h
  rw [prev, hc, Option.map_some, hprev]

/-! ### Writing links -/

/-- The cells with the link to the next cell set. -/
def putNext (m : Elems) (a : ℕ) (p : Option ℕ) : Elems := m.modify a fun e ↦ { e with next := p }

/-- The cells with the link to the previous cell set. -/
def putPrev (m : Elems) (a : ℕ) (p : Option ℕ) : Elems := m.modify a fun e ↦ { e with prev := p }

theorem setNext_eq (h : (m a).isSome) (p : Option ℕ) : setNext m a p = some (putNext m a p) :=
  Store.update?_eq h _

theorem setPrev_eq (h : (m a).isSome) (p : Option ℕ) : setPrev m a p = some (putPrev m a p) :=
  Store.update?_eq h _

@[simp] theorem isSome_putNext : (putNext m a p b).isSome = (m b).isSome := Store.isSome_modify ..

@[simp] theorem isSome_putPrev : (putPrev m a p b).isSome = (m b).isSome := Store.isSome_modify ..

theorem putNext_of_ne (h : b ≠ a) : putNext m a p b = m b := Store.modify_of_ne _ h _

theorem putPrev_of_ne (h : b ≠ a) : putPrev m a p b = m b := Store.modify_of_ne _ h _

@[simp] theorem prev_putNext : prev (putNext m a p) b = prev m b := by
  by_cases h : b = a
  · subst h
    rw [prev, putNext, Store.modify_self, Option.map_map]
    rfl
  · rw [prev, putNext_of_ne h, prev]

@[simp] theorem next_putPrev : next (putPrev m a p) b = next m b := by
  by_cases h : b = a
  · subst h
    rw [next, putPrev, Store.modify_self, Option.map_map]
    rfl
  · rw [next, putPrev_of_ne h, next]

theorem next_putNext_self (h : (m a).isSome) : next (putNext m a p) a = some p := by
  obtain ⟨c, hc⟩ := Option.isSome_iff_exists.mp h
  rw [next, putNext, Store.modify_self, hc]
  rfl

theorem prev_putPrev_self (h : (m a).isSome) : prev (putPrev m a p) a = some p := by
  obtain ⟨c, hc⟩ := Option.isSome_iff_exists.mp h
  rw [prev, putPrev, Store.modify_self, hc]
  rfl

theorem next_putNext_of_ne (h : b ≠ a) : next (putNext m a p) b = next m b := by
  rw [next, putNext_of_ne h, next]

theorem prev_putPrev_of_ne (h : b ≠ a) : prev (putPrev m a p) b = prev m b := by
  rw [prev, putPrev_of_ne h, prev]

theorem after_eq (m : Elems) (a : ℕ) : after m a = (next m a).join := by
  rw [after, next]
  cases m a <;> rfl

theorem before_eq (m : Elems) (a : ℕ) : before m a = (prev m a).join := by
  rw [before, prev]
  cases m a <;> rfl

theorem isSome_of_next (h : next m a = some p) : (m a).isSome := by
  obtain ⟨c, hc, -⟩ := Option.map_eq_some_iff.mp h
  rw [hc, Option.isSome_some]

theorem isSome_of_prev (h : prev m a = some p) : (m a).isSome := by
  obtain ⟨c, hc, -⟩ := Option.map_eq_some_iff.mp h
  rw [hc, Option.isSome_some]

/-! ### Reading a ring -/

theorem Ring.next_eq (h : Ring m (F ++ x :: y :: B)) : next m x = some (some y) :=
  next_of_after h.links.neighbours.1

theorem Ring.prev_eq (h : Ring m (F ++ x :: y :: B)) : prev m y = some (some x) :=
  prev_of_before h.links.neighbours.2

/-- The cells of a ring are allocated. -/
theorem Ring.allocated (h : Ring m nodes) (ha : a ∈ nodes) : (m a).isSome := by
  obtain ⟨F, B, rfl⟩ := List.append_of_mem ha
  cases B with
  | nil => exact isSome_of_next (h.last a (by simp))
  | cons y B => exact isSome_of_next h.next_eq

/-- Cells that agree on a ring. -/
theorem Ring.frame (h : Ring m nodes) (hsame : ∀ a ∈ nodes, m' a = m a) : Ring m' nodes where
  links := h.links.congr
    (fun a ha ↦ by rw [after, hsame a (List.dropLast_subset _ ha), after])
    fun a ha ↦ by rw [before, hsame a (List.mem_of_mem_tail ha), before]
  first a ha := by
    rw [prev, hsame a (List.mem_of_mem_head? ha)]
    exact h.first a ha
  last a ha := by
    rw [next, hsame a (List.mem_of_mem_getLast? ha)]
    exact h.last a ha

/-! ### Cutting and pasting -/

/-- The cells after the links of two cells to each other have been set. -/
structure Relinked (m m' : Elems) (x y : ℕ) : Prop where
  next_eq : next m' x = some (some y)
  prev_eq : prev m' y = some (some x)
  next_same : ∀ b, b ≠ x → next m' b = next m b
  prev_same : ∀ b, b ≠ y → prev m' b = prev m b

/-- The same links. -/
theorem links_congr (h : Links (after m) (before m) nodes) (hnext : ∀ a ∈ nodes, next m' a = next m a)
    (hprev : ∀ a ∈ nodes, prev m' a = prev m a) : Links (after m') (before m') nodes :=
  h.congr (fun a ha ↦ by rw [after_eq, after_eq, hnext a (List.dropLast_subset _ ha)])
    fun a ha ↦ by rw [before_eq, before_eq, hprev a (List.mem_of_mem_tail ha)]

/-- Cutting a range of cells out of a ring. -/
theorem Ring.cut (h : Ring m (F ++ x :: (mid ++ y :: B))) (hnodup : (F ++ x :: (mid ++ y :: B)).Nodup)
    (hlink : Relinked m m' x y) :
    Ring m' (F ++ x :: y :: B) ∧ Links (after m') (before m') mid := by
  have hx : x ∉ F ∧ x ∉ mid ∧ x ∉ y :: B := by grind
  have hy : y ∉ F ++ [x] ∧ y ∉ mid ∧ y ∉ B := by grind
  refine ⟨⟨?_, fun a ha ↦ ?_, fun a ha ↦ ?_⟩, ?_⟩
  · refine h.links.splice mid [] ?_ (fun w hw ↦ ?_) fun w hw ↦ ?_
    · refine links_cons_cons.mpr ⟨⟨?_, ?_⟩, links_singleton⟩
      · rw [after_eq, hlink.next_eq, Option.join_some]
      · rw [before_eq, hlink.prev_eq, Option.join_some]
    · rw [after_eq, after_eq, hlink.next_same w]
      rintro rfl
      rcases List.mem_append.mp hw with hw | hw
      · exact hx.1 hw
      · exact hx.2.2 (List.dropLast_subset _ hw)
    · rw [before_eq, before_eq, hlink.prev_same w]
      rintro rfl
      rcases List.mem_append.mp hw with hw | hw
      · exact hy.1 (List.mem_of_mem_tail hw)
      · exact hy.2.2 hw
  · have hhead : (F ++ x :: (mid ++ y :: B)).head? = some a := by
      cases F <;> exact ha
    rw [hlink.prev_same a]
    · exact h.first a hhead
    · rintro rfl
      cases F with
      | nil => exact hy.1 (List.mem_of_mem_head? ha)
      | cons b F => exact hy.1 (List.mem_append_left _ (List.mem_of_mem_head? ha))
  · have hlast : (F ++ x :: (mid ++ y :: B)).getLast? = some a := by
      rw [← ha]
      simp [List.getLast?_append, List.getLast?_cons]
    rw [hlink.next_same a]
    · exact h.last a hlast
    · rintro rfl
      have hmem : a ∈ (y :: B).getLast? := by
        simpa [List.getLast?_append, List.getLast?_cons] using ha
      exact hx.2.2 (List.mem_of_mem_getLast? hmem)
  · have hmid : Links (after m) (before m) mid :=
      List.IsChain.infix h.links ⟨F ++ [x], y :: B, by simp⟩
    refine links_congr hmid (fun a ha ↦ hlink.next_same a ?_) fun a ha ↦ hlink.prev_same a ?_
    · rintro rfl
      exact hx.2.1 ha
    · rintro rfl
      exact hy.2.1 ha

/-- The cells after the links around a range of cells have been set. -/
structure Pasted (m m' : Elems) (x f z y : ℕ) : Prop where
  next_first : next m' x = some (some f)
  prev_first : prev m' f = some (some x)
  next_last : next m' z = some (some y)
  prev_last : prev m' y = some (some z)
  next_same : ∀ b, b ≠ x → b ≠ z → next m' b = next m b
  prev_same : ∀ b, b ≠ f → b ≠ y → prev m' b = prev m b

/-- Pasting a range of cells into a ring. -/
theorem Ring.paste (h : Ring m (F ++ x :: y :: B)) (hmid : Links (after m) (before m) mid)
    (hf : mid.head? = some f) (hz : mid.getLast? = some z)
    (hnodup : (F ++ x :: (mid ++ y :: B)).Nodup) (hpasted : Pasted m m' x f z y) :
    Ring m' (F ++ x :: (mid ++ y :: B)) := by
  have hfmem : f ∈ mid := List.mem_of_mem_head? hf
  have hzmem : z ∈ mid := List.mem_of_mem_getLast? hz
  have hnotInit : z ∉ mid.dropLast := by
    obtain ⟨init, rfl⟩ := List.getLast?_eq_some_iff.mp hz
    rw [List.dropLast_concat]
    grind
  have hnotTail : f ∉ mid.tail := by
    obtain ⟨rest, rfl⟩ := List.head?_eq_some_iff.mp hf
    rw [List.tail_cons]
    grind
  have hx : x ∉ F ∧ x ∉ mid ∧ x ∉ y :: B := by grind
  have hy : y ∉ F ++ [x] ∧ y ∉ mid ∧ y ∉ B := by grind
  have hapart : ∀ w ∈ mid, w ∉ F ++ [x] ∧ w ∉ y :: B := by grind
  have hinner : Links (after m') (before m') mid := by
    refine hmid.congr (fun w hw ↦ ?_) fun w hw ↦ ?_
    · rw [after_eq, after_eq, hpasted.next_same w]
      · exact ne_of_mem_of_not_mem (List.dropLast_subset _ hw) hx.2.1
      · exact ne_of_mem_of_not_mem hw hnotInit
    · rw [before_eq, before_eq, hpasted.prev_same w]
      · exact ne_of_mem_of_not_mem hw hnotTail
      · exact ne_of_mem_of_not_mem (List.mem_of_mem_tail hw) hy.2.1
  have hmiddle : Links (after m') (before m') (x :: (mid ++ [y])) := by
    refine List.isChain_cons.mpr ⟨fun w hw ↦ ?_, List.isChain_append.mpr
      ⟨hinner, links_singleton, fun u hu v hv ↦ ?_⟩⟩
    · rw [List.head?_append_of_ne_nil _ (List.ne_nil_of_mem hfmem), hf] at hw
      obtain rfl := Option.some.inj hw
      rw [after_eq, before_eq, hpasted.next_first, hpasted.prev_first]
      exact ⟨rfl, rfl⟩
    · rw [hz] at hu
      obtain rfl := Option.some.inj hu
      obtain rfl := Option.some.inj hv
      rw [after_eq, before_eq, hpasted.next_last, hpasted.prev_last]
      exact ⟨rfl, rfl⟩
  refine ⟨h.links.splice [] mid hmiddle (fun w hw ↦ ?_) fun w hw ↦ ?_, fun a ha ↦ ?_, fun a ha ↦ ?_⟩
  · rw [after_eq, after_eq, hpasted.next_same w]
    · rintro rfl
      rcases List.mem_append.mp hw with hw | hw
      · exact hx.1 hw
      · exact hx.2.2 (List.dropLast_subset _ hw)
    · rintro rfl
      rcases List.mem_append.mp hw with hw | hw
      · exact (hapart w hzmem).1 (List.mem_append_left _ hw)
      · exact (hapart w hzmem).2 (List.dropLast_subset _ hw)
  · rw [before_eq, before_eq, hpasted.prev_same w]
    · rintro rfl
      rcases List.mem_append.mp hw with hw | hw
      · exact (hapart w hfmem).1 (List.mem_of_mem_tail hw)
      · exact (hapart w hfmem).2 (List.mem_cons_of_mem _ hw)
    · rintro rfl
      rcases List.mem_append.mp hw with hw | hw
      · exact hy.1 (List.mem_of_mem_tail hw)
      · exact hy.2.2 hw
  · have hmem : a ∈ (F ++ [x]).head? := by
      cases F <;> exact ha
    have hmem' := List.mem_of_mem_head? hmem
    rw [hpasted.prev_same a (ne_of_mem_of_not_mem hmem' (hapart f hfmem).1)
      (ne_of_mem_of_not_mem hmem' hy.1)]
    refine h.first a ?_
    cases F <;> exact hmem
  · have hmem : a ∈ (y :: B).getLast? := by
      simpa [List.getLast?_append, List.getLast?_cons] using ha
    have hmem' := List.mem_of_mem_getLast? hmem
    rw [hpasted.next_same a (ne_of_mem_of_not_mem hmem' hx.2.2)
      (ne_of_mem_of_not_mem hmem' (hapart z hzmem).2)]
    refine h.last a ?_
    simpa [List.getLast?_append, List.getLast?_cons] using hmem

end Jungle.KernelList
