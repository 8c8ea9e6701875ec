import Jungle.Stdlib.Sort
import Mathlib.Data.List.GetD

/-!
# `binary_search`

The binary search of `pintos/lib/stdlib.c`. The pointers `first` and `last` bound the elements that may
compare equal to the key: the elements before them are less and those behind them are greater.
-/

set_option autoImplicit false
set_option relaxedAutoImplicit false

namespace Jungle.Stdlib

open Jungle.Lib

/-! ### The function -/

section Functions

variable (array size : ℕ) (compare : Element size → Element size → ℤ)

/-- A round of the loop of `binary_search`, with `first` and `last`. -/
def searchBody (m : Memory) (key : ℕ) : ℕ × ℕ → Option ((ℕ × ℕ) ⊕ Option ℕ)
  | (first, last) => do
    if first < last then
      let range := (last - first) / size
      let middle := first + range / 2 * size
      let cmp := compare (← readElement m key size) (← readElement m middle size)
      if cmp < 0 then return .inl (first, middle)
      else if 0 < cmp then return .inl (middle + size, last)
      else return .inr (some middle)
    else return .inr none

/-- `binary_search (key, array, cnt, size, compare, aux)` -/
def binarySearch (fuel : ℕ) (m : Memory) (key cnt : ℕ) : Option (Option ℕ) :=
  whileLoop (searchBody size compare m key) fuel (array, array + size * cnt)

end Functions

variable {array size cnt key first last : ℕ} {m : Memory} {f : ℕ → Element size} {k : Element size}
  {compare : Element size → Element size → ℤ}

/-! ### Searching -/

/-- The pointers are to elements; those before `first` are less than the key and those from `last` on are
greater. -/
structure Bounds (compare : Element size → Element size → ℤ) (f : ℕ → Element size)
    (k : Element size) (array cnt lo hi first last : ℕ) : Prop where
  first : first = array + lo * size
  last : last = array + hi * size
  inside : lo ≤ hi ∧ hi ≤ cnt
  less : ∀ j, 1 ≤ j → j ≤ lo → 0 < compare k (f j)
  greater : ∀ j, hi < j → j ≤ cnt → compare k (f j) < 0

/-- A key that is less than an element is less than the elements behind it. -/
theorem less_behind (horder : IsTotalPreorder compare) {a b : Element size} (hless : compare k a < 0)
    (hab : compare a b ≤ 0) : compare k b < 0 := by
  by_contra hnot
  have hsign := horder.sign k b
  have hsign' := horder.sign b k
  have hle := horder.trans a b k hab (by omega)
  have hpos := (horder.sign k a).mp hless
  omega

/-- A key that is greater than an element is greater than the elements before it. -/
theorem greater_before (horder : IsTotalPreorder compare) {a b : Element size}
    (hgreater : 0 < compare k b) (hab : compare a b ≤ 0) : 0 < compare k a := by
  by_contra hnot
  have hle := horder.trans k a b (by omega) hab
  omega

/-- What `binary_search` should return: the address of an element that compares equal, or `NULL` if there
is none. -/
def Finds (compare : Element size → Element size → ℤ) (k : Element size) (array : ℕ)
    (elems : List (Element size)) : Option ℕ → Prop
  | some p => ∃ (i : ℕ) (hi : i < elems.length), p = array + i * size ∧ compare k elems[i] = 0
  | none => ∀ e ∈ elems, compare k e ≠ 0

/-- The loop of `binary_search` narrows the bounds. -/
theorem search_loop {lo hi : ℕ} (horder : IsTotalPreorder compare) (hsize : 0 < size)
    (h : IsArray m array cnt f) (hsorted : InPlace (AtMost compare) f 1 cnt)
    (hkey : readElement m key size = some k)
    (hbounds : Bounds compare f k array cnt lo hi first last) : ∃ found,
      Returns (fun fuel ↦ whileLoop (searchBody size compare m key) fuel (first, last)) found ∧
        Finds compare k array ((List.range cnt).map fun j ↦ f (j + 1)) found := by
  obtain ⟨hfirst, hlast, hinside, hless, hgreater⟩ := hbounds
  induction hn : hi - lo using Nat.strongRecOn generalizing lo hi first last with
  | ind n ih =>
    by_cases hempty : lo = hi
    · have hstop : ¬first < last := by rw [hfirst, hlast, hempty]; exact Nat.lt_irrefl _
      refine ⟨none, returns_leave ?_, fun e he ↦ ?_⟩
      · rw [searchBody, if_neg hstop]
        rfl
      · obtain ⟨j, hj, rfl⟩ := List.mem_map.mp he
        have hjn := List.mem_range.mp hj
        by_cases hjlo : j + 1 ≤ lo
        · exact Int.ne_of_gt (hless (j + 1) (by omega) hjlo)
        · exact Int.ne_of_lt (hgreater (j + 1) (by omega) (by omega))
    · have hlt : first < last := by
        rw [hfirst, hlast]
        exact Nat.add_lt_add_left ((Nat.mul_lt_mul_right hsize).mpr (by omega)) _
      have hrange : (last - first) / size = hi - lo := by
        rw [hfirst, hlast, Nat.add_sub_add_left, ← Nat.sub_mul, Nat.mul_div_cancel _ hsize]
      have hmiddle : first + (last - first) / size / 2 * size =
          array + (lo + (hi - lo) / 2) * size := by
        rw [hrange, hfirst, Nat.add_mul, Nat.add_assoc]
      have hread : readElement m (array + (lo + (hi - lo) / 2) * size) size =
          some (f (lo + (hi - lo) / 2 + 1)) :=
        readElement_eq (h (lo + (hi - lo) / 2 + 1) (by omega) (by omega))
      have hbehind : array + (lo + (hi - lo) / 2) * size + size =
          array + (lo + (hi - lo) / 2 + 1) * size := by
        rw [Nat.add_mul _ 1, Nat.one_mul, Nat.add_assoc]
      rcases Int.lt_trichotomy (compare k (f (lo + (hi - lo) / 2 + 1))) 0 with hcmp | hcmp | hcmp
      · have hgreater' : ∀ j, lo + (hi - lo) / 2 < j → j ≤ cnt → compare k (f j) < 0 := by
          intro j hj hjn
          rcases Nat.eq_or_lt_of_le (Nat.succ_le_of_lt hj) with rfl | hlater
          · exact hcmp
          · exact less_behind horder hcmp (hsorted _ j (by omega) (by omega) (by omega) hjn)
        obtain ⟨found, hloop, hfound⟩ := ih (lo + (hi - lo) / 2 - lo) (by omega) hfirst rfl
          (by omega) hless hgreater' rfl
        refine ⟨found, returns_continue ?_ hloop, hfound⟩
        unfold searchBody
        dsimp only [Bind.bind]
        rw [if_pos hlt, hkey, Option.bind_some, hmiddle, hread, Option.bind_some, if_pos hcmp]
        rfl
      · refine ⟨some (array + (lo + (hi - lo) / 2) * size), returns_leave ?_, lo + (hi - lo) / 2,
          by simpa using by omega, rfl, by simpa using hcmp⟩
        unfold searchBody
        dsimp only [Bind.bind]
        rw [if_pos hlt, hkey, Option.bind_some, hmiddle, hread, Option.bind_some,
          if_neg (by omega), if_neg (by omega)]
        rfl
      · have hless' : ∀ j, 1 ≤ j → j ≤ lo + (hi - lo) / 2 + 1 → 0 < compare k (f j) := by
          intro j hj hjn
          rcases Nat.eq_or_lt_of_le hjn with rfl | hearlier
          · exact hcmp
          · exact greater_before horder hcmp (hsorted j _ hj (by omega) (by omega) (by omega))
        obtain ⟨found, hloop, hfound⟩ := ih (hi - (lo + (hi - lo) / 2 + 1)) (by omega) hbehind hlast
          (by omega) hless' hgreater rfl
        refine ⟨found, returns_continue ?_ hloop, hfound⟩
        unfold searchBody
        dsimp only [Bind.bind]
        rw [if_pos hlt, hkey, Option.bind_some, hmiddle, hread, Option.bind_some,
          if_neg (by omega), if_pos hcmp]
        rfl

/-! ### Lists of elements -/

/-- An array of elements. -/
def HoldsList (m : Memory) (array : ℕ) (elems : List (Element size)) : Prop :=
  ∀ (k : ℕ) (hk : k < elems.length) (i : ℕ) (hi : i < size),
    m (array + k * size + i) = some elems[k][i]

/-- The elements of a list, counted from 1. -/
def items (elems : List (Element size)) (k : ℕ) : Element size := elems.getD (k - 1) default

variable {elems : List (Element size)}

theorem map_items (elems : List (Element size)) :
    ((List.range elems.length).map fun k ↦ items elems (k + 1)) = elems := by
  refine List.ext_getElem (by simp) fun i hi hi' ↦ ?_
  simp [items, hi']

theorem HoldsList.isArray (h : HoldsList m array elems) :
    IsArray m array elems.length (items elems) := by
  intro k hk hn i hi
  have hget : items elems k = elems[k - 1] := List.getD_eq_getElem _ _ (by omega)
  rw [hget]
  exact h (k - 1) (by omega) i hi

theorem holdsList_map (h : IsArray m array cnt f) :
    HoldsList m array ((List.range cnt).map fun k ↦ f (k + 1)) := by
  intro k hk i hi
  rw [List.length_map, List.length_range] at hk
  have hcell := h (k + 1) (by omega) hk i hi
  simpa using hcell

theorem pairwise_map (h : InPlace (AtMost compare) f 1 cnt) :
    ((List.range cnt).map fun k ↦ f (k + 1)).Pairwise fun a b ↦ compare a b ≤ 0 := by
  refine List.pairwise_iff_getElem.mpr fun i j hi hj hij ↦ ?_
  rw [List.length_map, List.length_range] at hj
  simpa using h (i + 1) (j + 1) (by omega) (by omega) (by omega) (by omega)

theorem inPlace_items (h : elems.Pairwise fun a b ↦ compare a b ≤ 0)
    (hrefl : ∀ a, compare a a ≤ 0) : InPlace (AtMost compare) (items elems) 1 elems.length := by
  intro a b ha hab hb hn
  have hget : ∀ k, 1 ≤ k → (hk : k - 1 < elems.length) → items elems k = elems[k - 1] :=
    fun k _ hk ↦ List.getD_eq_getElem _ _ hk
  rw [hget a ha (by omega), hget b (by omega) (by omega)]
  rcases Nat.eq_or_lt_of_le hab with rfl | hlt
  · exact hrefl _
  · exact List.pairwise_iff_getElem.mp h (a - 1) (b - 1) _ _ (by omega)

/-- `sort` returns with the elements of the array permuted into order and all other bytes as they were;
`binary_search` in an array in order returns an element that compares equal to the key, if there is one. -/
theorem sort_and_search (horder : IsTotalPreorder compare) (hsize : 0 < size)
    (h : HoldsList m array elems) (hnull : array ≠ 0 ∨ elems.length = 0) :
    (∃ m' elems', Returns (fun fuel ↦ sort array size compare fuel m elems.length) m' ∧
      HoldsList m' array elems' ∧ elems'.Perm elems ∧
      elems'.Pairwise (fun a b ↦ compare a b ≤ 0) ∧
      SameOutside m m' array (elems.length * size)) ∧
    (elems.Pairwise (fun a b ↦ compare a b ≤ 0) → ∀ key k, readElement m key size = some k →
      ∃ found, Returns (fun fuel ↦ binarySearch array size compare fuel m key elems.length) found ∧
        Finds compare k array elems found) := by
  constructor
  · obtain ⟨m', f', hreturns, harray', hperm, hplace, hsame⟩ :=
      sort_spec horder h.isArray hsize hnull
    have hlist := hperm.perm
    rw [map_items] at hlist
    exact ⟨m', _, hreturns, holdsList_map harray', hlist, pairwise_map hplace, hsame⟩
  · intro hsorted key k hkey
    obtain ⟨found, hloop, hfound⟩ := search_loop horder hsize h.isArray
      (inPlace_items hsorted horder.refl) hkey
      ⟨(by rw [Nat.zero_mul, Nat.add_zero]), rfl, ⟨Nat.zero_le _, Nat.le_refl _⟩, by omega, by omega⟩
    rw [map_items] at hfound
    refine ⟨found, ?_, hfound⟩
    simp only [binarySearch, Nat.mul_comm size]
    exact hloop

/-- The comparison of bytes. -/
def compareBytes (a b : Element 1) : ℤ := (a[0].toNat : ℤ) - b[0].toNat

theorem isTotalPreorder_compareBytes : IsTotalPreorder compareBytes where
  sign a b := by
    simp only [compareBytes]
    omega
  trans a b c := by
    simp only [compareBytes]
    omega

/-- An array of the bytes 2 and 1. -/
def twoBytes : Memory
  | 8 => some 2
  | 9 => some 1
  | _ => none

/-- The two bytes are put in order. -/
theorem sort_and_search_twoBytes : ∃ m' elems',
    Returns (fun fuel ↦ sort 8 1 compareBytes fuel twoBytes 2) m' ∧ HoldsList m' 8 elems' ∧
      elems'.Perm [#v[2], #v[1]] ∧ elems'.Pairwise fun a b ↦ compareBytes a b ≤ 0 := by
  have harray : HoldsList twoBytes 8 [(#v[2] : Element 1), #v[1]] := by
    intro k hk i hi
    obtain rfl : i = 0 := by omega
    rcases k with _ | _ | k
    · rfl
    · rfl
    · exact absurd hk (by rw [List.length_cons, List.length_singleton]; omega)
  obtain ⟨⟨m', elems', hreturns, hholds, hperm, hsorted, -⟩, -⟩ :=
    sort_and_search isTotalPreorder_compareBytes Nat.one_pos harray (Or.inl (by decide))
  exact ⟨m', elems', hreturns, hholds, hperm, hsorted⟩

end Jungle.Stdlib
