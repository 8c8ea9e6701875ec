import Jungle.Lib.Store
import Mathlib.Data.List.Nodup
import Mathlib.Tactic.Common

/-!
# Singly linked segments of a store

`Segment item next s x entries y` says that the links of the store `s` lead from the pointer `x`
through the cells `entries`, given as addresses with their items, to the pointer `y`. A list that
ends in the null pointer is a segment with `y = none`; it determines its entries
(`Segment.unique`), so it visits no address twice (`Segment.nodup`). A segment depends on the
cells it visits only (`Segment.frame`), and two segments compose (`segment_append`).
-/

set_option autoImplicit false
set_option relaxedAutoImplicit false

namespace Jungle.Lib

variable {Cell Item : Type*}

/-- The links of a store lead from one pointer through the listed cells to another pointer. -/
def Segment (item : Cell → Item) (next : Cell → Option ℕ) (s : Store Cell) :
    Option ℕ → List (ℕ × Item) → Option ℕ → Prop
  | x, [], y => x = y
  | x, (a, v) :: rest, y =>
    x = some a ∧ ∃ cell, s a = some cell ∧ item cell = v ∧ Segment item next s (next cell) rest y

variable {item : Cell → Item} {next : Cell → Option ℕ} {s t : Store Cell} {x y : Option ℕ}
  {entries front back : List (ℕ × Item)}

@[simp] theorem segment_nil : Segment item next s x [] y ↔ x = y := Iff.rfl

theorem segment_cons {a : ℕ} {v : Item} :
    Segment item next s x ((a, v) :: entries) y ↔
      x = some a ∧ ∃ cell, s a = some cell ∧ item cell = v ∧
        Segment item next s (next cell) entries y :=
  Iff.rfl

/-- Segments compose. -/
theorem segment_append : Segment item next s x (front ++ back) y ↔
    ∃ z, Segment item next s x front z ∧ Segment item next s z back y := by
  induction front generalizing x with
  | nil => simp
  | cons entry front ih =>
    obtain ⟨a, v⟩ := entry
    simp only [List.cons_append, segment_cons, ih]
    constructor
    · rintro ⟨hx, cell, hcell, hitem, z, hfront, hback⟩
      exact ⟨z, ⟨hx, cell, hcell, hitem, hfront⟩, hback⟩
    · rintro ⟨z, ⟨hx, cell, hcell, hitem, hfront⟩, hback⟩
      exact ⟨hx, cell, hcell, hitem, z, hfront, hback⟩

/-- A segment depends on the cells it visits only. -/
theorem Segment.frame (h : Segment item next s x entries y)
    (hagree : ∀ entry ∈ entries, t entry.1 = s entry.1) : Segment item next t x entries y := by
  induction entries generalizing x with
  | nil => exact h
  | cons entry entries ih =>
    obtain ⟨a, v⟩ := entry
    obtain ⟨hx, cell, hcell, hitem, hrest⟩ := h
    refine ⟨hx, cell, ?_, hitem, ih hrest fun entry hentry ↦ ?_⟩
    · rw [hagree (a, v) List.mem_cons_self, hcell]
    · exact hagree entry (List.mem_cons_of_mem _ hentry)

/-- The addresses a segment visits hold cells. -/
theorem Segment.allocated (h : Segment item next s x entries y) {entry : ℕ × Item}
    (hentry : entry ∈ entries) : ∃ cell, s entry.1 = some cell ∧ item cell = entry.2 := by
  induction entries generalizing x with
  | nil => exact absurd hentry List.not_mem_nil
  | cons first entries ih =>
    obtain ⟨a, v⟩ := first
    obtain ⟨-, cell, hcell, hitem, hrest⟩ := h
    rcases List.mem_cons.mp hentry with rfl | hentry
    · exact ⟨cell, hcell, hitem⟩
    · exact ih hrest hentry

/-- A segment to the null pointer is determined by where it starts. -/
theorem Segment.unique (h : Segment item next s x front none)
    (h' : Segment item next s x back none) : front = back := by
  induction front generalizing x back with
  | nil =>
    cases back with
    | nil => rfl
    | cons entry back => exact absurd (h.symm.trans h'.1) (by simp)
  | cons entry front ih =>
    obtain ⟨a, v⟩ := entry
    obtain ⟨hx, cell, hcell, hitem, hrest⟩ := h
    cases back with
    | nil => exact absurd (hx.symm.trans h') (by simp)
    | cons entry back =>
      obtain ⟨b, w⟩ := entry
      obtain ⟨hx', cell', hcell', hitem', hrest'⟩ := h'
      obtain rfl : a = b := Option.some.inj (hx.symm.trans hx')
      obtain rfl : cell = cell' := Option.some.inj (hcell.symm.trans hcell')
      rw [ih hrest hrest', ← hitem, ← hitem']

/-- A segment to the null pointer visits no address twice. -/
theorem Segment.nodup (h : Segment item next s x entries none) :
    (entries.map Prod.fst).Nodup := by
  induction entries generalizing x with
  | nil => exact List.nodup_nil
  | cons entry entries ih =>
    obtain ⟨a, v⟩ := entry
    obtain ⟨hx, cell, hcell, hitem, hrest⟩ := h
    refine List.nodup_cons.mpr ⟨fun hmem ↦ ?_, ih hrest⟩
    obtain ⟨⟨b, w⟩, hentry, rfl⟩ := List.mem_map.mp hmem
    obtain ⟨front, back, hsplit⟩ := List.append_of_mem hentry
    have hsuffix : ∃ z, Segment item next s z front (some b) ∧
        Segment item next s (some b) ((b, w) :: back) none := by
      rw [hsplit] at hrest
      obtain ⟨z, hfront, hback⟩ := segment_append.mp hrest
      obtain rfl := hback.1
      exact ⟨_, hfront, hback⟩
    obtain ⟨_, -, hback⟩ := hsuffix
    have hwhole : Segment item next s (some b) ((b, v) :: entries) none :=
      ⟨rfl, cell, hcell, hitem, hrest⟩
    have hlength := congrArg List.length (hwhole.unique hback)
    rw [hsplit] at hlength
    simp only [List.length_cons, List.length_append] at hlength
    omega

/-- The first pointer of a nonempty segment is the address of its first cell. -/
theorem Segment.head_eq (h : Segment item next s x entries none) :
    x = (entries.map Prod.fst).head? := by
  cases entries with
  | nil => exact h
  | cons entry entries => exact h.1

/-- The cell of an entry leads to the next entry. -/
theorem Segment.exists_cell {a : ℕ} {v : Item}
    (h : Segment item next s x (front ++ (a, v) :: back) none) :
    ∃ cell, s a = some cell ∧ item cell = v ∧ next cell = (back.map Prod.fst).head? := by
  obtain ⟨z, -, -, cell, hcell, hitem, hback⟩ := segment_append.mp h
  exact ⟨cell, hcell, hitem, hback.head_eq⟩

/-- Linking a cell that the segment does not visit in after its first part: `cell'` takes the new
link and `new` takes over the rest. -/
theorem Segment.link {a new : ℕ} {v w : Item} {cell cell' newCell : Cell}
    (h : Segment item next s x (front ++ (a, v) :: back) none)
    (hcell : s a = some cell) (hnew : new ∉ (front ++ (a, v) :: back).map Prod.fst)
    (hitem' : item cell' = v) (hnext' : next cell' = some new)
    (hitem : item newCell = w) (hnext : next newCell = next cell) :
    Segment item next ((s.put new newCell).put a cell') x
      (front ++ (a, v) :: (new, w) :: back) none := by
  have hnodup := h.nodup
  obtain ⟨z, hfront, hx, cell₀, hcell₀, -, hback⟩ := segment_append.mp h
  obtain rfl : cell = cell₀ := Option.some.inj (hcell.symm.trans hcell₀)
  have hfresh : ∀ entry ∈ front ++ (a, v) :: back, entry.1 ≠ new := fun entry hentry ↦
    ne_of_mem_of_not_mem (List.mem_map_of_mem hentry) hnew
  have hne : a ≠ new := hfresh (a, v) (by simp)
  rw [List.map_append, List.map_cons, List.nodup_append] at hnodup
  obtain ⟨-, hnodupBack, hdisjoint⟩ := hnodup
  refine segment_append.mpr ⟨z, hfront.frame fun entry hentry ↦ ?_, hx, cell', by simp, hitem', ?_⟩
  · have hnea : entry.1 ≠ a := hdisjoint _ (List.mem_map_of_mem hentry) _ List.mem_cons_self
    rw [Store.put_of_ne _ hnea, Store.put_of_ne _ (hfresh entry (by simp [hentry]))]
  · refine ⟨hnext', newCell, ?_, hitem, ?_⟩
    · rw [Store.put_of_ne _ hne.symm, Store.put_self]
    · rw [hnext]
      refine hback.frame fun entry hentry ↦ ?_
      have hmem : entry.1 ∈ back.map Prod.fst := List.mem_map_of_mem hentry
      have hnea : entry.1 ≠ a := fun heq ↦ (List.nodup_cons.mp hnodupBack).1 (heq ▸ hmem)
      rw [Store.put_of_ne _ hnea, Store.put_of_ne _ (hfresh entry (by simp [hentry]))]

/-- Linking a new cell in after the first part of a segment. -/
theorem Segment.insert {a new : ℕ} {v w : Item} {cell cell' newCell : Cell}
    (h : Segment item next s x (front ++ (a, v) :: back) none)
    (hcell : s a = some cell) (hnew : s new = none)
    (hitem' : item cell' = v) (hnext' : next cell' = some new)
    (hitem : item newCell = w) (hnext : next newCell = next cell) :
    Segment item next ((s.put new newCell).put a cell') x
      (front ++ (a, v) :: (new, w) :: back) none := by
  refine h.link hcell (fun hmem ↦ ?_) hitem' hnext' hitem hnext
  obtain ⟨entry, hentry, rfl⟩ := List.mem_map.mp hmem
  obtain ⟨other, hother, -⟩ := h.allocated hentry
  rw [hnew] at hother
  exact absurd hother (Option.some_ne_none other).symm

/-- Linking the second of two neighbouring cells out: `cell'` takes over its link. -/
theorem Segment.unlink {a b : ℕ} {v w : Item} {cell cell' : Cell}
    (h : Segment item next s x (front ++ (a, v) :: (b, w) :: back) none)
    (hcell : s b = some cell) (hitem' : item cell' = v) (hnext' : next cell' = next cell) :
    Segment item next (s.put a cell') x (front ++ (a, v) :: back) none := by
  have hnodup := h.nodup
  obtain ⟨z, hfront, hx, cellA, hcellA, -, hb, cellB, hcellB, -, hback⟩ := segment_append.mp h
  obtain rfl : cell = cellB := Option.some.inj (hcell.symm.trans hcellB)
  simp only [List.map_append, List.map_cons, List.nodup_append, List.nodup_cons,
    List.mem_cons] at hnodup
  obtain ⟨-, ⟨hnotmem, -⟩, hdisjoint⟩ := hnodup
  refine segment_append.mpr ⟨z, hfront.frame fun entry hentry ↦ ?_, hx, cell', Store.put_self ..,
    hitem', ?_⟩
  · exact Store.put_of_ne _ (hdisjoint _ (List.mem_map_of_mem hentry) _ (Or.inl rfl)) _
  · rw [hnext']
    refine hback.frame fun entry hentry ↦ Store.put_of_ne _ (fun heq ↦ hnotmem (Or.inr ?_)) _
    exact heq ▸ List.mem_map_of_mem hentry

/-- Linking the second of two neighbouring cells out and freeing it: `cell'` takes over its
link. -/
theorem Segment.remove {a b : ℕ} {v w : Item} {cell cell' : Cell}
    (h : Segment item next s x (front ++ (a, v) :: (b, w) :: back) none)
    (hcell : s b = some cell) (hitem' : item cell' = v) (hnext' : next cell' = next cell) :
    Segment item next ((s.put a cell').free b) x (front ++ (a, v) :: back) none := by
  have hnodup := h.nodup
  simp only [List.map_append, List.map_cons, List.nodup_append, List.nodup_cons,
    List.mem_cons] at hnodup
  obtain ⟨-, ⟨hnotmemA, hnotmemB, -⟩, hdisjoint⟩ := hnodup
  refine (h.unlink hcell hitem' hnext').frame fun entry hentry ↦ Store.free_of_ne _ ?_
  rintro rfl
  rcases List.mem_append.mp hentry with hfront | hback
  · exact hdisjoint _ (List.mem_map_of_mem hfront) _ (Or.inr (Or.inl rfl)) rfl
  · rcases List.mem_cons.mp hback with heq | hback
    · exact hnotmemA (Or.inl (congrArg Prod.fst heq).symm)
    · exact hnotmemB (List.mem_map_of_mem hback)

end Jungle.Lib
