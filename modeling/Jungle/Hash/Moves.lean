import Jungle.Hash.Counts
import Jungle.KernelList.Families

/-!
# Searching and moving

What the loops of `find_elem` and `rehash` do with the lists they go through: `find_elem` finds the
first equivalent element, and `rehash` moves every element of its old buckets to the bucket it belongs
in.
-/

set_option autoImplicit false
set_option relaxedAutoImplicit false

namespace Jungle.Hash

open Jungle.Lib Jungle.KernelList

variable {ι : Type*} [DecidableEq ι] {lists : ι → KList} {σ : ι → List ℕ} {m m' : Elems} {i s : ι}
  {F B : List ℕ} {x e : ℕ} {hash : ℕ → UInt64} {less : ℕ → ℕ → Bool} {h : Table}

/-! ### Searching -/

/-- The test of `find_elem`. -/
def equivalent (less : ℕ → ℕ → Bool) (e x : ℕ) : Bool := !less x e && !less e x

theorem findBody_tail (bucket : KList) :
    findBody less m bucket e (some bucket.tail) = some (.inr none) :=
  if_pos rfl

theorem findBody_elem {bucket : KList} (hne : x ≠ bucket.tail) :
    findBody less m bucket e (some x) =
      if equivalent less e x then some (.inr (some x)) else (listNext m x).map .inl := by
  have htail : ¬some x = some (listEnd bucket) := fun heq ↦ hne (Option.some.inj heq)
  rw [findBody, if_neg htail, Option.bind_eq_bind, Option.bind_some, equivalent, Option.map_eq_bind]
  rfl

omit [DecidableEq ι] in
theorem returns_find (hholds : Holds lists m σ) (hσ : σ i = F ++ B) :
    Returns (fun fuel ↦ whileLoop (findBody less m (lists i) e) fuel
      (B ++ [(lists i).tail]).head?) (B.find? (equivalent less e)) := by
  induction B generalizing F with
  | nil => exact returns_leave (findBody_tail _)
  | cons x B ih =>
    have hmem : x ∈ σ i := hσ ▸ List.mem_append_right _ List.mem_cons_self
    have hne : x ≠ (lists i).tail := fun heq ↦ hholds.tail_not_mem (heq ▸ hmem)
    rw [List.cons_append, List.head?_cons]
    cases hx : equivalent less e x with
    | true =>
      rw [List.find?_cons_of_pos hx]
      refine returns_leave ?_
      rw [findBody_elem hne, hx, if_pos rfl]
    | false =>
      rw [List.find?_cons_of_neg (Bool.not_eq_true _ ▸ hx)]
      have hσ' : σ i = (F ++ [x]) ++ B := by rw [hσ, List.append_cons]
      refine returns_continue ?_ (ih hσ')
      rw [findBody_elem hne, hx, if_neg Bool.false_ne_true, hholds.listNext_eq hσ, Option.map_some]

omit [DecidableEq ι] in
/-- `find_elem` finds the first equivalent element of a bucket. -/
theorem returns_findElem (less : ℕ → ℕ → Bool) (hholds : Holds lists m σ) (i : ι) (e : ℕ) :
    Returns (fun fuel ↦ findElem less fuel m (lists i) e) ((σ i).find? (equivalent less e)) := by
  have hσ : σ i = [] ++ σ i := (List.nil_append _).symm
  have hloop : Returns (fun fuel ↦ whileLoop (findBody less m (lists i) e) fuel
      (σ i ++ [(lists i).tail]).head?) ((σ i).find? (equivalent less e)) := returns_find hholds hσ
  simpa only [findElem, hholds.listBegin_eq, Option.bind_eq_bind, Option.bind_some] using hloop

/-! ### Moving -/

variable {target : ℕ → ι}

/-- A round of the loop of `rehash` over an old bucket. -/
theorem move_round (hholds : Holds lists m σ) (hB : σ s = x :: B)
    (htarget : findBucket hash h x = lists (target x)) (hne : target x ≠ s) : ∃ m',
      moveBody hash h (lists s) (m, some x) =
        some (.inl (m', (B ++ [(lists s).tail]).head?)) ∧
      Holds lists m' (Function.update (Function.update σ s B) (target x) (x :: σ (target x))) ∧
      ∀ a, (m' a).isSome = (m a).isSome := by
  have hmem : x ∈ σ s := hB ▸ List.mem_cons_self
  have htail : x ≠ (lists s).tail := fun heq ↦ hholds.tail_not_mem (heq ▸ hmem)
  obtain ⟨m₁, y, hremove, -, hholds₁⟩ := holds_remove (F := []) hholds hB
  have hcell : (m₁ x).isSome := by
    rw [listRemove_allocated hremove]
    exact (hholds.ring s).allocated (List.mem_cons_of_mem _ (List.mem_append_left _ hmem))
  have hout : InNoList lists (Function.update σ s ([] ++ B)) x := hholds.inNoList (F := []) hB
  obtain ⟨m', hpush, hholds'⟩ := holds_pushFront (i := target x) hholds₁ hcell hout
  rw [Function.update_of_ne hne, List.nil_append] at hholds'
  refine ⟨m', ?_, hholds', fun a ↦ ?_⟩
  · have hnext : listNext m x = some (B ++ [(lists s).tail]).head? := hholds.listNext_eq (F := []) hB
    simp [moveBody, listEnd, htail, htarget, hnext, hremove, hpush]
  · rw [listPushFront_allocated hpush, listRemove_allocated hremove]

/-- The loop of `rehash` over an old bucket moves its elements where they belong. -/
theorem move_loop (hholds : Holds lists m σ) (hB : σ s = B)
    (htarget : ∀ x, findBucket hash h x = lists (target x)) (hne : ∀ x, target x ≠ s) : ∃ m' σ',
      Returns (fun fuel ↦ whileLoop (moveBody hash h (lists s)) fuel
        (m, (B ++ [(lists s).tail]).head?)) m' ∧ Holds lists m' σ' ∧ σ' s = [] ∧
      (∀ i ≠ s, ∀ x, x ∈ σ' i ↔ x ∈ σ i ∨ x ∈ B ∧ target x = i) ∧
      ∀ a, (m' a).isSome = (m a).isSome := by
  induction B generalizing m σ with
  | nil =>
    refine ⟨m, σ, returns_leave (if_pos rfl), hholds, hB, fun i _ x ↦ ?_, fun _ ↦ rfl⟩
    exact ⟨Or.inl, fun hx ↦ hx.elim id fun hx ↦ absurd hx.1 List.not_mem_nil⟩
  | cons x B ih =>
    obtain ⟨m₁, hround, hholds₁, hcells₁⟩ := move_round hholds hB (htarget x) (hne x)
    have hB₁ : Function.update (Function.update σ s B) (target x) (x :: σ (target x)) s = B := by
      rw [Function.update_of_ne (hne x).symm, Function.update_self]
    obtain ⟨m', σ', hloop, hholds', hempty, hmem, hcells'⟩ := ih hholds₁ hB₁
    refine ⟨m', σ', returns_continue hround hloop, hholds', hempty, fun i hi y ↦ ?_, fun a ↦ ?_⟩
    · rw [hmem i hi y]
      by_cases hix : i = target x
      · subst hix
        rw [Function.update_self, List.mem_cons, List.mem_cons]
        constructor
        · rintro ((rfl | hy) | ⟨hy, htargetEq⟩)
          · exact Or.inr ⟨Or.inl rfl, rfl⟩
          · exact Or.inl hy
          · exact Or.inr ⟨Or.inr hy, htargetEq⟩
        · rintro (hy | ⟨rfl | hy, htargetEq⟩)
          · exact Or.inl (Or.inr hy)
          · exact Or.inl (Or.inl rfl)
          · exact Or.inr ⟨hy, htargetEq⟩
      · rw [Function.update_of_ne hix, Function.update_of_ne hi, List.mem_cons]
        constructor
        · rintro (hy | ⟨hy, htargetEq⟩)
          · exact Or.inl hy
          · exact Or.inr ⟨Or.inr hy, htargetEq⟩
        · rintro (hy | ⟨rfl | hy, htargetEq⟩)
          · exact Or.inl hy
          · exact absurd htargetEq.symm hix
          · exact Or.inr ⟨hy, htargetEq⟩
    · rw [hcells', hcells₁]

/-- The loop of `rehash` over some of the lists. -/
def moveLists (hash : ℕ → UInt64) (h : Table) (lists : ι → KList) (fuel : ℕ) (m : Elems) (s : ι) :
    Option Elems := do
  whileLoop (moveBody hash h (lists s)) fuel (m, ← listBegin m (lists s))

/-- The loop of `rehash` over its old buckets empties them. -/
theorem move_all (order : List ι) (hholds : Holds lists m σ)
    (htarget : ∀ x, findBucket hash h x = lists (target x)) (hout : ∀ x, target x ∉ order) :
    ∃ m' σ', Returns (fun fuel ↦ order.foldlM (moveLists hash h lists fuel) m) m' ∧
      Holds lists m' σ' ∧
      (∀ i ∉ order, ∀ x, x ∈ σ' i ↔ x ∈ σ i ∨ (∃ s ∈ order, x ∈ σ s) ∧ target x = i) ∧
      ∀ a, (m' a).isSome = (m a).isSome := by
  induction order generalizing m σ with
  | nil =>
    refine ⟨m, σ, returns_const rfl, hholds, fun i _ x ↦ ?_, fun _ ↦ rfl⟩
    exact ⟨Or.inl, fun hx ↦ hx.elim id fun ⟨⟨s, hs, _⟩, _⟩ ↦ absurd hs List.not_mem_nil⟩
  | cons s order ih =>
    have hnes : ∀ x, target x ≠ s := fun x heq ↦ hout x (heq ▸ List.mem_cons_self)
    obtain ⟨m₁, σ₁, hloop, hholds₁, hempty, hmem₁, hcells₁⟩ := move_loop hholds rfl htarget hnes
    obtain ⟨m', σ', hrest, hholds', hmem', hcells'⟩ := ih hholds₁
      fun x hx ↦ hout x (List.mem_cons_of_mem s hx)
    have hfirst : Returns (fun fuel ↦ moveLists hash h lists fuel m s) m₁ := by
      simpa only [moveLists, hholds.listBegin_eq, Option.bind_eq_bind, Option.bind_some] using hloop
    refine ⟨m', σ', ?_, hholds', fun i hi x ↦ ?_, fun a ↦ (hcells' a).trans (hcells₁ a)⟩
    · simp only [List.foldlM_cons, Option.bind_eq_bind]
      exact hfirst.bind hrest
    · rw [List.mem_cons, not_or] at hi
      rw [hmem' i hi.2 x, hmem₁ i hi.1 x]
      have hearlier : ∀ s' ∈ order, x ∈ σ₁ s' → x ∈ σ s' := by
        intro s' hs' hx
        by_cases hs : s' = s
        · rw [hs, hempty] at hx
          exact absurd hx List.not_mem_nil
        · rcases (hmem₁ s' hs x).mp hx with hx | ⟨-, htargetEq⟩
          · exact hx
          · exact absurd (htargetEq ▸ List.mem_cons_of_mem s hs') (hout x)
      constructor
      · rintro ((hx | ⟨hx, heq⟩) | ⟨⟨s', hs', hx⟩, heq⟩)
        · exact Or.inl hx
        · exact Or.inr ⟨⟨s, List.mem_cons_self, hx⟩, heq⟩
        · exact Or.inr ⟨⟨s', List.mem_cons_of_mem s hs', hearlier s' hs' hx⟩, heq⟩
      · rintro (hx | ⟨⟨s', hs', hx⟩, heq⟩)
        · exact Or.inl (Or.inl hx)
        · by_cases hs : s' = s
          · subst hs
            exact Or.inl (Or.inr ⟨hx, heq⟩)
          · refine Or.inr ⟨⟨s', ?_, (hmem₁ s' hs x).mpr (Or.inl hx)⟩, heq⟩
            exact (List.mem_cons.mp hs').resolve_left hs

end Jungle.Hash
