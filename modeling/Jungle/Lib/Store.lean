import Mathlib.Logic.Function.Basic
import Mathlib.Data.Nat.Notation

/-!
# Stores of typed cells

A pointer program owns a store: a partial map from addresses to cells. `Store.put` writes or
allocates a cell, `Store.free` gives it back, and reading an address that holds no cell yields
`none`, so that a use after free is visible as a failed read. A pointer is an `Option ℕ`, with
`none` for the null pointer.
-/

set_option autoImplicit false
set_option relaxedAutoImplicit false

namespace Jungle.Lib

/-- A partial map from addresses to cells. -/
abbrev Store (Cell : Type*) := ℕ → Option Cell

namespace Store

variable {Cell : Type*}

/-- The store with no cell allocated. -/
def empty : Store Cell := fun _ ↦ none

/-- Writes a cell, allocating it if need be. -/
def put (s : Store Cell) (a : ℕ) (cell : Cell) : Store Cell := Function.update s a (some cell)

/-- Gives a cell back. -/
def free (s : Store Cell) (a : ℕ) : Store Cell := Function.update s a none

@[simp] theorem empty_apply (a : ℕ) : (empty : Store Cell) a = none := rfl

@[simp] theorem put_self (s : Store Cell) (a : ℕ) (cell : Cell) : s.put a cell a = some cell :=
  Function.update_self ..

@[simp] theorem free_self (s : Store Cell) (a : ℕ) : s.free a a = none :=
  Function.update_self ..

theorem put_of_ne (s : Store Cell) {a b : ℕ} (h : b ≠ a) (cell : Cell) :
    s.put a cell b = s b :=
  Function.update_of_ne h ..

theorem free_of_ne (s : Store Cell) {a b : ℕ} (h : b ≠ a) : s.free a b = s b :=
  Function.update_of_ne h ..

theorem put_apply (s : Store Cell) (a b : ℕ) (cell : Cell) :
    s.put a cell b = if b = a then some cell else s b :=
  Function.update_apply ..

theorem free_apply (s : Store Cell) (a b : ℕ) :
    s.free a b = if b = a then none else s b :=
  Function.update_apply ..

/-- What holds of every cell after one has been written. -/
theorem forall_put {s : Store Cell} {a : ℕ} {cell : Cell} {P : ℕ → Cell → Prop} (hself : P a cell)
    (hother : ∀ b, b ≠ a → ∀ c, s b = some c → P b c) : ∀ b c, s.put a cell b = some c → P b c := by
  intro b c hc
  by_cases hb : b = a
  · subst hb
    rw [put_self] at hc
    exact Option.some.inj hc ▸ hself
  · rw [put_of_ne s hb] at hc
    exact hother b hb c hc

/-- What holds of every cell after one has been given back. -/
theorem forall_free {s : Store Cell} {a : ℕ} {P : ℕ → Cell → Prop}
    (hother : ∀ b, b ≠ a → ∀ c, s b = some c → P b c) : ∀ b c, s.free a b = some c → P b c := by
  intro b c hc
  by_cases hb : b = a
  · subst hb
    rw [free_self] at hc
    exact absurd hc.symm (Option.some_ne_none c)
  · rw [free_of_ne s hb] at hc
    exact hother b hb c hc

theorem isSome_put (s : Store Cell) (a b : ℕ) (cell : Cell) :
    (s.put a cell b).isSome ↔ b = a ∨ (s b).isSome := by
  by_cases hb : b = a <;> simp [put_apply, hb]

theorem isSome_free (s : Store Cell) (a b : ℕ) :
    (s.free a b).isSome ↔ b ≠ a ∧ (s b).isSome := by
  by_cases hb : b = a <;> simp [free_apply, hb]

/-- Changes the cell at an address, if there is one. -/
def modify (s : Store Cell) (a : ℕ) (change : Cell → Cell) : Store Cell :=
  Function.update s a ((s a).map change)

/-- Changes the cell at an address; fails if there is none. -/
def update? (s : Store Cell) (a : ℕ) (change : Cell → Cell) : Option (Store Cell) :=
  if (s a).isSome then some (s.modify a change) else none

theorem update?_eq {s : Store Cell} {a : ℕ} (h : (s a).isSome) (change : Cell → Cell) :
    s.update? a change = some (s.modify a change) :=
  if_pos h

theorem modify_self (s : Store Cell) (a : ℕ) (change : Cell → Cell) :
    s.modify a change a = (s a).map change :=
  Function.update_self ..

theorem modify_of_ne (s : Store Cell) {a b : ℕ} (h : b ≠ a) (change : Cell → Cell) :
    s.modify a change b = s b :=
  Function.update_of_ne h ..

@[simp] theorem isSome_modify (s : Store Cell) (a b : ℕ) (change : Cell → Cell) :
    (s.modify a change b).isSome = (s b).isSome := by
  by_cases h : b = a
  · rw [h, modify_self, Option.isSome_map]
  · rw [modify_of_ne s h]

/-- A change that does not fail allocates nothing and frees nothing. -/
theorem isSome_of_update? {s s' : Store Cell} {a : ℕ} {change : Cell → Cell}
    (h : s.update? a change = some s') (b : ℕ) : (s' b).isSome = (s b).isSome := by
  have hcell : (s a).isSome := by
    by_contra hcell
    exact absurd ((if_neg hcell).symm.trans h) (Option.some_ne_none s').symm
  rw [← Option.some.inj ((update?_eq hcell change).symm.trans h), isSome_modify]

/-- A change does not show in a field it keeps. -/
theorem map_modify {Field : Type*} {s : Store Cell} {field : Cell → Field} {a : ℕ}
    {change : Cell → Cell} (h : ∀ cell, field (change cell) = field cell) (b : ℕ) :
    (s.modify a change b).map field = (s b).map field := by
  by_cases hb : b = a
  · rw [hb, modify_self, Option.map_map]
    exact congrArg (fun f ↦ (s a).map f) (funext h)
  · rw [modify_of_ne s hb]

/-- A change shows in the field it sets. -/
theorem map_modify_self {Field : Type*} {s : Store Cell} {field : Cell → Field} {a : ℕ}
    {change : Cell → Cell} {value : Field} (hcell : (s a).isSome)
    (h : ∀ cell, field (change cell) = value) : (s.modify a change a).map field = some value := by
  obtain ⟨cell, hcell⟩ := Option.isSome_iff_exists.mp hcell
  rw [modify_self, hcell, Option.map_some, Option.map_some, h]

/-- Writing back the cell that an address already holds changes nothing. -/
theorem put_eq_self {s : Store Cell} {a : ℕ} {cell : Cell} (h : s a = some cell) :
    s.put a cell = s := by
  rw [put, ← h, Function.update_eq_self]

end Store

end Jungle.Lib
