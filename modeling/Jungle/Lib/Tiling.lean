import Mathlib.Algebra.GroupWithZero.Nat
import Mathlib.Data.List.Nodup
import Mathlib.Data.Nat.Notation

/-!
# Tilings of an interval

`Tiles pos size a tiles e` says that the tiles cover the interval from `a` to `e` without a gap, one
after the other. A tiling may be cut anywhere, each part may be replaced by another tiling of the same
interval, and two tiles are apart.
-/

set_option autoImplicit false
set_option relaxedAutoImplicit false

namespace Jungle.Lib

variable {Tile : Type*}

/-- The tiles cover the numbers from `a` to `e`, each one starting where the one before ends. -/
def Tiles (pos size : Tile → ℕ) : ℕ → List Tile → ℕ → Prop
  | a, [], e => a = e
  | a, t :: tiles, e => pos t = a ∧ Tiles pos size (a + size t) tiles e

namespace Tiles

variable {pos size : Tile → ℕ} {tiles tiles' : List Tile} {t u : Tile} {a e x y : ℕ}

theorem append_iff :
    Tiles pos size a (tiles ++ tiles') e ↔
      ∃ x, Tiles pos size a tiles x ∧ Tiles pos size x tiles' e := by
  induction tiles generalizing a with
  | nil => simp [Tiles]
  | cons t tiles ih =>
    simp only [List.cons_append, Tiles, ih, and_assoc]
    exact ⟨fun ⟨hpos, x, hx⟩ ↦ ⟨x, hpos, hx⟩, fun ⟨x, hpos, hx⟩ ↦ ⟨hpos, x, hx⟩⟩

theorem append (h : Tiles pos size a tiles x) (h' : Tiles pos size x tiles' e) :
    Tiles pos size a (tiles ++ tiles') e :=
  append_iff.mpr ⟨x, h, h'⟩

theorem singleton (t : Tile) : Tiles pos size (pos t) [t] (pos t + size t) := ⟨rfl, rfl⟩

theorem singleton_iff : Tiles pos size a [t] e ↔ pos t = a ∧ a + size t = e := Iff.rfl

theorem le (h : Tiles pos size a tiles e) : a ≤ e := by
  induction tiles generalizing a with
  | nil => exact Nat.le_of_eq h
  | cons t tiles ih => exact Nat.le_trans (Nat.le_add_right _ _) (ih h.2)

/-- The sizes add up. -/
theorem add_sum (h : Tiles pos size a tiles e) : a + (tiles.map size).sum = e := by
  induction tiles generalizing a with
  | nil => exact h
  | cons t tiles ih =>
    rw [List.map_cons, List.sum_cons, ← Nat.add_assoc]
    exact ih h.2

/-- The parts in front of and behind a part of which the interval is known. -/
theorem cut {front back : List Tile} (h : Tiles pos size a (front ++ tiles ++ back) e)
    (htiles : Tiles pos size x tiles y) (hne : tiles ≠ []) :
    Tiles pos size a front x ∧ Tiles pos size y back e := by
  obtain ⟨y', h', hback⟩ := append_iff.mp h
  obtain ⟨x', hfront, hmiddle⟩ := append_iff.mp h'
  have hx : x' = x := by
    cases tiles with
    | nil => exact absurd rfl hne
    | cons t tiles => exact hmiddle.1.symm.trans htiles.1
  have hsum := hmiddle.add_sum
  have hsum' := htiles.add_sum
  have hy : y' = y := by omega
  exact ⟨hx ▸ hfront, hy ▸ hback⟩

/-- Every tile lies within the interval. -/
theorem bounds (h : Tiles pos size a tiles e) (ht : t ∈ tiles) :
    a ≤ pos t ∧ pos t + size t ≤ e := by
  obtain ⟨front, back, rfl⟩ := List.append_of_mem ht
  obtain ⟨x, hfront, hpos, hback⟩ := append_iff.mp h
  have hle := hfront.le
  have hle' := le hback
  exact ⟨hpos ▸ hle, hpos ▸ hle'⟩

/-- Two tiles are the same one or apart. -/
theorem eq_or_apart (h : Tiles pos size a tiles e) (ht : t ∈ tiles) (hu : u ∈ tiles) :
    t = u ∨ pos t + size t ≤ pos u ∨ pos u + size u ≤ pos t := by
  obtain ⟨front, back, rfl⟩ := List.append_of_mem ht
  obtain ⟨x, hfront, hpos, hback⟩ := append_iff.mp h
  rcases List.mem_append.mp hu with hu | hu
  · have hbound := (hfront.bounds hu).2
    exact Or.inr (Or.inr (hpos ▸ hbound))
  · rcases List.mem_cons.mp hu with hu | hu
    · exact Or.inl hu.symm
    · have hbound := (bounds hback hu).1
      exact Or.inr (Or.inl (hpos ▸ hbound))

/-- Tiles that are not empty are known by their positions. -/
theorem eq_of_pos_eq (h : Tiles pos size a tiles e) (hsize : ∀ t ∈ tiles, 0 < size t)
    (ht : t ∈ tiles) (hu : u ∈ tiles) (hpos : pos t = pos u) : t = u := by
  have htsize := hsize t ht
  have husize := hsize u hu
  rcases h.eq_or_apart ht hu with heq | hapart
  · exact heq
  · omega

theorem nodup_pos (h : Tiles pos size a tiles e) (hsize : ∀ t ∈ tiles, 0 < size t) :
    (tiles.map pos).Nodup := by
  induction tiles generalizing a with
  | nil => exact List.nodup_nil
  | cons t tiles ih =>
    rw [List.map_cons, List.nodup_cons]
    refine ⟨fun hmem ↦ ?_, ih h.2 fun u hu ↦ hsize u (List.mem_cons_of_mem t hu)⟩
    obtain ⟨u, hu, hpos⟩ := List.mem_map.mp hmem
    have htsize := hsize t List.mem_cons_self
    have hbound := (bounds h.2 hu).1
    have ht := h.1
    omega

/-- Tiles whose sizes have a common divisor start at its multiples. -/
theorem dvd_pos {d : ℕ} (h : Tiles pos size a tiles e) (ha : d ∣ a)
    (hsize : ∀ t ∈ tiles, d ∣ size t) (ht : t ∈ tiles) : d ∣ pos t := by
  induction tiles generalizing a with
  | nil => exact absurd ht List.not_mem_nil
  | cons u tiles ih =>
    rcases List.mem_cons.mp ht with rfl | ht
    · exact h.1 ▸ ha
    · have hu := Nat.dvd_add ha (hsize u List.mem_cons_self)
      exact ih h.2 hu (fun t ht ↦ hsize t (List.mem_cons_of_mem u ht)) ht

end Tiles

end Jungle.Lib
