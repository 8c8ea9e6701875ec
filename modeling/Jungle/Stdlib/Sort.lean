import Jungle.Lib.Heap
import Jungle.Lib.Loop
import Jungle.Lib.Store

/-!
# `sort`

The heap sort of `pintos/lib/stdlib.c`. The store holds the bytes that may be read and written, so that a
call faults, with `none`, where it follows a pointer to another one; it faults too where an `ASSERT` fails.
`compare` compares the bytes of two elements, with what `aux` points to. An array is smaller than half of
the address space, so that no index wraps. `fuel` bounds the rounds of the loop of `heapify`.
-/

set_option autoImplicit false
set_option relaxedAutoImplicit false

namespace Jungle.Stdlib

open Jungle.Lib

/-! ### The functions -/

/-- The bytes. -/
abbrev Memory := Store UInt8

/-- The bytes of an element. -/
abbrev Element (size : ℕ) := Vector UInt8 size

/-- The element at an address. -/
def readElement (m : Memory) (a size : ℕ) : Option (Element size) :=
  Vector.ofFnM fun i : Fin size ↦ m (a + i)

section Functions

variable (array size : ℕ) (compare : Element size → Element size → ℤ)

/-- A round of the loop of `do_swap`. -/
def swapByte (a b : ℕ) (m : Memory) (i : ℕ) : Option Memory := do
  let t ← m (a + i)
  let m := m.put (a + i) (← m (b + i))
  return m.put (b + i) t

/-- `do_swap (array, a_idx, b_idx, size)` -/
def doSwap (m : Memory) (aIdx bIdx : ℕ) : Option Memory :=
  let a := array + (aIdx - 1) * size
  let b := array + (bIdx - 1) * size
  (List.range size).foldlM (swapByte a b) m

/-- `do_compare (array, a_idx, b_idx, size, compare, aux)` -/
def doCompare (m : Memory) (aIdx bIdx : ℕ) : Option ℤ := do
  let a ← readElement m (array + (aIdx - 1) * size) size
  let b ← readElement m (array + (bIdx - 1) * size) size
  return compare a b

/-- `if (idx <= cnt && do_compare (array, idx, max, size, compare, aux) > 0) max = idx;` -/
def larger (m : Memory) (cnt idx max : ℕ) : Option ℕ := do
  if idx ≤ cnt then
    if 0 < (← doCompare array size compare m idx max) then return idx else return max
  else return max

/-- A round of the loop of `heapify`. -/
def heapifyBody (cnt : ℕ) : Memory × ℕ → Option ((Memory × ℕ) ⊕ Memory)
  | (m, i) => do
    let left := 2 * i
    let right := 2 * i + 1
    let max ← larger array size compare m cnt left i
    let max ← larger array size compare m cnt right max
    if max = i then return .inr m
    else return .inl (← doSwap array size m i max, max)

/-- `heapify (array, i, cnt, size, compare, aux)` -/
def heapify (fuel : ℕ) (m : Memory) (i cnt : ℕ) : Option Memory :=
  whileLoop (heapifyBody array size compare cnt) fuel (m, i)

/-- The first loop of `sort`, from `i` on. -/
def buildLoop (fuel cnt : ℕ) (m : Memory) : ℕ → Option Memory
  | 0 => some m
  | i + 1 => do
    let m ← heapify array size compare fuel m (i + 1) cnt
    buildLoop fuel cnt m i

/-- The second loop of `sort`, from `i` on. -/
def sortLoop (fuel : ℕ) (m : Memory) : ℕ → Option Memory
  | 0 => some m
  | 1 => some m
  | i + 2 => do
    let m ← doSwap array size m 1 (i + 2)
    let m ← heapify array size compare fuel m 1 (i + 1)
    sortLoop fuel m (i + 1)

/-- `sort (array, cnt, size, compare, aux)` -/
def sort (fuel : ℕ) (m : Memory) (cnt : ℕ) : Option Memory :=
  if ¬(array ≠ 0 ∨ cnt = 0) then none
  else if ¬0 < size then none
  else do
    let m ← buildLoop array size compare fuel cnt m (cnt / 2)
    sortLoop array size compare fuel m cnt

end Functions

/-! ### Arrays -/

/-- A total preorder that is given by signs. -/
structure IsTotalPreorder {α : Type*} (compare : α → α → ℤ) : Prop where
  sign : ∀ a b, compare a b < 0 ↔ 0 < compare b a
  trans : ∀ a b c, compare a b ≤ 0 → compare b c ≤ 0 → compare a c ≤ 0

theorem IsTotalPreorder.refl {α : Type*} {compare : α → α → ℤ} (h : IsTotalPreorder compare) (a : α) :
    compare a a ≤ 0 := by
  have hsign := h.sign a a
  omega

variable {array size cnt n : ℕ} {m m' m'' : Memory} {f f' : ℕ → Element size} {a b i lo : ℕ}
  {compare : Element size → Element size → ℤ}

/-- The elements of an array, counted from 1. -/
def IsArray (m : Memory) (array cnt : ℕ) (f : ℕ → Element size) : Prop :=
  ∀ k, 1 ≤ k → k ≤ cnt → ∀ (i : ℕ) (hi : i < size), m (array + (k - 1) * size + i) = some (f k)[i]

/-- Only the bytes of the array may have changed. -/
def SameOutside (m m' : Memory) (array length : ℕ) : Prop :=
  ∀ x, ¬(array ≤ x ∧ x < array + length) → m' x = m x

theorem SameOutside.refl (m : Memory) (array length : ℕ) : SameOutside m m array length :=
  fun _ _ ↦ rfl

theorem SameOutside.trans {length : ℕ} (h : SameOutside m m' array length)
    (h' : SameOutside m' m'' array length) : SameOutside m m'' array length :=
  fun x hx ↦ (h' x hx).trans (h x hx)

theorem readElement_eq {v : Element size} (h : ∀ (i : ℕ) (hi : i < size), m (a + i) = some v[i]) :
    readElement m a size = some v := by
  have hbytes : (fun i : Fin size ↦ m (a + i)) = fun i ↦ pure v[i] := funext fun i ↦ h i i.isLt
  rw [readElement, hbytes, Vector.ofFnM_pure]
  exact congrArg some (Vector.ext fun i hi ↦ Vector.getElem_ofFn ..)

/-- The elements are apart. -/
theorem element_apart (ha : 1 ≤ a) (hab : a < b) (size : ℕ) : (a - 1) * size + size ≤ (b - 1) * size := by
  have hle := Nat.mul_le_mul_right size (show a - 1 + 1 ≤ b - 1 by omega)
  rwa [Nat.add_mul, Nat.one_mul] at hle

theorem element_inside (ha : 1 ≤ a) (hn : a ≤ cnt) (size : ℕ) : (a - 1) * size + size ≤ cnt * size := by
  have hle := Nat.mul_le_mul_right size (show a - 1 + 1 ≤ cnt by omega)
  rwa [Nat.add_mul, Nat.one_mul] at hle

/-- `do_compare` -/
theorem doCompare_eq (h : IsArray m array cnt f) (ha : 1 ≤ a ∧ a ≤ cnt) (hb : 1 ≤ b ∧ b ≤ cnt) :
    doCompare array size compare m a b = some (compare (f a) (f b)) := by
  rw [doCompare, readElement_eq (h a ha.1 ha.2), readElement_eq (h b hb.1 hb.2)]
  rfl

/-- The loop of `do_swap` on two elements. -/
theorem swapBytes {u v : ℕ → UInt8} (hu : ∀ i < n, m (a + i) = some (u i))
    (hv : ∀ i < n, m (b + i) = some (v i)) (hapart : a + n ≤ b ∨ b + n ≤ a) : ∃ m',
      (List.range n).foldlM (swapByte a b) m = some m' ∧ (∀ i < n, m' (a + i) = some (v i)) ∧
        (∀ i < n, m' (b + i) = some (u i)) ∧
        ∀ x, ¬(a ≤ x ∧ x < a + n) → ¬(b ≤ x ∧ x < b + n) → m' x = m x := by
  induction n with
  | zero => exact ⟨m, rfl, nofun, nofun, fun _ _ _ ↦ rfl⟩
  | succ n ih =>
    obtain ⟨m₁, hfold, ha, hb, hsame⟩ := ih (fun i hi ↦ hu i (by omega)) (fun i hi ↦ hv i (by omega))
      (by omega)
    have hua : m₁ (a + n) = some (u n) := by
      rw [hsame _ (by omega) (by omega), hu n (Nat.lt_succ_self n)]
    have hvb : m₁ (b + n) = some (v n) := by
      rw [hsame _ (by omega) (by omega), hv n (Nat.lt_succ_self n)]
    refine ⟨(m₁.put (a + n) (v n)).put (b + n) (u n), ?_, fun i hi ↦ ?_, fun i hi ↦ ?_, fun x hx hx' ↦ ?_⟩
    · simp [List.range_succ, List.foldlM_append, hfold, swapByte, hua, hvb]
    · rw [Store.put_of_ne _ (by omega)]
      rcases Nat.lt_succ_iff_lt_or_eq.mp hi with hlt | rfl
      · rw [Store.put_of_ne _ (by omega), ha i hlt]
      · exact Store.put_self ..
    · rcases Nat.lt_succ_iff_lt_or_eq.mp hi with hlt | rfl
      · rw [Store.put_of_ne _ (by omega), Store.put_of_ne _ (by omega), hb i hlt]
      · exact Store.put_self ..
    · rw [Store.put_of_ne _ (by omega), Store.put_of_ne _ (by omega), hsame x (by omega) (by omega)]

/-- `do_swap` -/
theorem doSwap_spec (h : IsArray m array cnt f) (ha : 1 ≤ a ∧ a ≤ cnt) (hb : 1 ≤ b ∧ b ≤ cnt)
    (hne : a ≠ b) : ∃ m', doSwap array size m a b = some m' ∧
      IsArray m' array cnt (f ∘ Equiv.swap a b) ∧ SameOutside m m' array (cnt * size) := by
  have hapart : array + (a - 1) * size + size ≤ array + (b - 1) * size ∨
      array + (b - 1) * size + size ≤ array + (a - 1) * size := by
    rcases Nat.lt_or_gt_of_ne hne with hlt | hlt
    · exact Or.inl (by have := element_apart ha.1 hlt size; omega)
    · exact Or.inr (by have := element_apart hb.1 hlt size; omega)
  obtain ⟨m', hfold, hma, hmb, hsame⟩ := swapBytes (n := size)
    (u := fun i ↦ if hi : i < size then (f a)[i] else 0)
    (v := fun i ↦ if hi : i < size then (f b)[i] else 0)
    (fun i hi ↦ by rw [dif_pos hi]; exact h a ha.1 ha.2 i hi)
    (fun i hi ↦ by rw [dif_pos hi]; exact h b hb.1 hb.2 i hi) hapart
  refine ⟨m', hfold, fun k hk hkn i hi ↦ ?_, fun x hx ↦ hsame x ?_ ?_⟩
  · by_cases hka : k = a
    · subst hka
      rw [Function.comp_apply, Equiv.swap_apply_left, hma i hi, dif_pos hi]
    by_cases hkb : k = b
    · subst hkb
      rw [Function.comp_apply, Equiv.swap_apply_right, hmb i hi, dif_pos hi]
    · have hkapart : ∀ c, 1 ≤ c → k ≠ c →
          (k - 1) * size + size ≤ (c - 1) * size ∨ (c - 1) * size + size ≤ (k - 1) * size := by
        intro c hc hkc
        rcases Nat.lt_or_gt_of_ne hkc with hlt | hlt
        · exact Or.inl (element_apart hk hlt size)
        · exact Or.inr (element_apart hc hlt size)
      have hfirst := hkapart a ha.1 hka
      have hsecond := hkapart b hb.1 hkb
      rw [Function.comp_apply, Equiv.swap_apply_of_ne_of_ne hka hkb, hsame _ (by omega) (by omega)]
      exact h k hk hkn i hi
  · have := element_inside ha.1 ha.2 size
    omega
  · have := element_inside hb.1 hb.2 size
    omega

/-! ### Sifting -/

/-- The items are in order by the sign of their comparison. -/
abbrev AtMost (compare : Element size → Element size → ℤ) (a b : Element size) : Prop := compare a b ≤ 0

/-- The choice of `larger`. -/
theorem larger_eq (h : IsArray m array cnt f) (hn : n ≤ cnt) (ha : 1 ≤ a) (hb : 1 ≤ b ∧ b ≤ cnt) :
    larger array size compare m n a b =
      some (if a ≤ n ∧ 0 < compare (f a) (f b) then a else b) := by
  unfold larger
  dsimp only [Bind.bind]
  by_cases han : a ≤ n
  · rw [if_pos han, doCompare_eq h ⟨ha, by omega⟩ hb, Option.bind_some]
    by_cases hpos : 0 < compare (f a) (f b)
    · rw [if_pos hpos, if_pos ⟨han, hpos⟩]
      rfl
    · rw [if_neg hpos, if_neg fun hboth ↦ hpos hboth.2]
      rfl
  · rw [if_neg han, if_neg fun hboth ↦ han hboth.1]
    rfl

/-- A round of `heapify` chooses the largest of an element and its children. -/
theorem exists_largest (horder : IsTotalPreorder compare) (h : IsArray m array cnt f) (hn : n ≤ cnt)
    (hi : 1 ≤ i ∧ i ≤ n) : ∃ left k, larger array size compare m n (2 * i) i = some left ∧
      larger array size compare m n (2 * i + 1) left = some k ∧ (k = i ∨ IsChild k i) ∧ k ≤ n ∧
      AtMost compare (f i) (f k) ∧
      ∀ c, IsChild c i → c ≤ n → AtMost compare (f c) (f k) := by
  have hsign := horder.sign
  have hrefl := horder.refl
  refine ⟨_, _, larger_eq h hn (by omega) (by omega), larger_eq h hn (by omega) ?_, ?_⟩
  · split_ifs <;> omega
  by_cases hleft : 2 * i ≤ n ∧ 0 < compare (f (2 * i)) (f i)
  · have hup := (hsign (f i) (f (2 * i))).mpr hleft.2
    rw [if_pos hleft]
    by_cases hright : 2 * i + 1 ≤ n ∧ 0 < compare (f (2 * i + 1)) (f (2 * i))
    · have hup' := (hsign (f (2 * i)) (f (2 * i + 1))).mpr hright.2
      rw [if_pos hright]
      refine ⟨Or.inr (Or.inr rfl), hright.1, horder.trans _ _ _ (Int.le_of_lt hup) (Int.le_of_lt hup'), fun c hc hcn ↦ ?_⟩
      rcases hc with rfl | rfl
      · exact Int.le_of_lt hup'
      · exact hrefl _
    · rw [if_neg hright]
      refine ⟨Or.inr (Or.inl rfl), hleft.1, Int.le_of_lt hup, fun c hc hcn ↦ ?_⟩
      rcases hc with rfl | rfl
      · exact hrefl _
      · exact Int.not_lt.mp fun hpos ↦ hright ⟨hcn, hpos⟩
  · rw [if_neg hleft]
    by_cases hright : 2 * i + 1 ≤ n ∧ 0 < compare (f (2 * i + 1)) (f i)
    · have hup := (hsign (f i) (f (2 * i + 1))).mpr hright.2
      rw [if_pos hright]
      refine ⟨Or.inr (Or.inr rfl), hright.1, Int.le_of_lt hup, fun c hc hcn ↦ ?_⟩
      rcases hc with rfl | rfl
      · have hle : compare (f (2 * i)) (f i) ≤ 0 := Int.not_lt.mp fun hpos ↦ hleft ⟨hcn, hpos⟩
        exact horder.trans _ _ _ hle (Int.le_of_lt hup)
      · exact hrefl _
    · rw [if_neg hright]
      refine ⟨Or.inl rfl, hi.2, hrefl _, fun c hc hcn ↦ ?_⟩
      rcases hc with rfl | rfl
      · exact Int.not_lt.mp fun hpos ↦ hleft ⟨hcn, hpos⟩
      · exact Int.not_lt.mp fun hpos ↦ hright ⟨hcn, hpos⟩

/-- `heapify` makes a heap of an element in front of heaps. -/
theorem heapify_spec (horder : IsTotalPreorder compare) (h : IsArray m array cnt f) (hn : n ≤ cnt)
    (hlo : 1 ≤ lo) (hi : lo ≤ i ∧ i ≤ n) (hheap : IsHeapExcept (AtMost compare) f lo n i) :
    ∃ m' f', Returns (fun fuel ↦ heapify array size compare fuel m i n) m' ∧
      IsArray m' array cnt f' ∧ Rearranged n f f' ∧ IsHeap (AtMost compare) f' lo n ∧
      SameOutside m m' array (cnt * size) := by
  induction hk : n - i using Nat.strongRecOn generalizing m f i with
  | ind k ih =>
    obtain ⟨left, max, hleft, hmax, hchild, hmaxn, hup, hlargest⟩ :=
      exists_largest horder h hn (show 1 ≤ i ∧ i ≤ n by omega)
    by_cases hstay : max = i
    · subst hstay
      refine ⟨m, f, returns_leave ?_, h, Rearranged.refl n f, hheap.isHeap hlargest,
        SameOutside.refl _ _ _⟩
      unfold heapifyBody
      dsimp only [Bind.bind]
      rw [hleft, Option.bind_some, hmax, Option.bind_some, if_pos rfl]
      rfl
    · have hdown := hchild.resolve_left hstay
      have hgt : i < max := by
        unfold IsChild at hdown
        omega
      obtain ⟨m₁, hswap, harray₁, hsame₁⟩ :=
        doSwap_spec h (show 1 ≤ i ∧ i ≤ cnt by omega) (show 1 ≤ max ∧ max ≤ cnt by omega) (Nat.ne_of_lt hgt)
      obtain ⟨m', f', hloop, harray', hperm, hheap', hsame'⟩ :=
        ih (n - max) (by omega) harray₁ (by omega)
          (hheap.sift (by omega) hi.1 hdown hup hlargest hmaxn) rfl
      refine ⟨m', f', returns_continue ?_ hloop, harray',
        (Rearranged.swap f (by omega) (by omega)).trans hperm, hheap', hsame₁.trans hsame'⟩
      unfold heapifyBody
      dsimp only [Bind.bind]
      rw [hleft, Option.bind_some, hmax, Option.bind_some, if_neg hstay, hswap]
      rfl

/-! ### Sorting -/

/-- The first loop of `sort` makes a heap. -/
theorem buildLoop_spec (horder : IsTotalPreorder compare) (h : IsArray m array cnt f) (hi : 2 * i ≤ cnt)
    (hheap : IsHeap (AtMost compare) f (i + 1) cnt) : ∃ m' f',
      Returns (fun fuel ↦ buildLoop array size compare fuel cnt m i) m' ∧ IsArray m' array cnt f' ∧
        Rearranged cnt f f' ∧ IsHeap (AtMost compare) f' 1 cnt ∧
        SameOutside m m' array (cnt * size) := by
  induction i generalizing m f with
  | zero => exact ⟨m, f, returns_const rfl, h, Rearranged.refl cnt f, hheap, SameOutside.refl _ _ _⟩
  | succ i ih =>
    obtain ⟨m₁, f₁, hsift, harray₁, hperm₁, hheap₁, hsame₁⟩ :=
      heapify_spec horder h (Nat.le_refl cnt) (Nat.succ_pos i)
        (show i + 1 ≤ i + 1 ∧ i + 1 ≤ cnt by omega) (hheap.except (Nat.succ_pos i))
    obtain ⟨m', f', hloop, harray', hperm', hheap', hsame'⟩ := ih harray₁ (by omega) hheap₁
    exact ⟨m', f', hsift.bind hloop, harray', hperm₁.trans hperm', hheap', hsame₁.trans hsame'⟩

/-- The second loop of `sort` puts the elements of a heap in order. -/
theorem sortLoop_spec (horder : IsTotalPreorder compare) : ∀ {i : ℕ} {m : Memory} {f : ℕ → Element size},
    IsArray m array cnt f → i ≤ cnt → IsHeap (AtMost compare) f 1 i → InPlace (AtMost compare) f i cnt →
    ∃ m' f', Returns (fun fuel ↦ sortLoop array size compare fuel m i) m' ∧ IsArray m' array cnt f' ∧
      Rearranged cnt f f' ∧ InPlace (AtMost compare) f' 1 cnt ∧ SameOutside m m' array (cnt * size)
  | 0, m, f, h, _, _, hplace =>
    ⟨m, f, returns_const rfl, h, Rearranged.refl cnt f,
      fun a b ha hab hlt ↦ hplace a b ha hab (Nat.zero_lt_of_lt hlt), SameOutside.refl _ _ _⟩
  | 1, m, f, h, _, _, hplace =>
    ⟨m, f, returns_const rfl, h, Rearranged.refl cnt f, hplace, SameOutside.refl _ _ _⟩
  | i + 2, m, f, h, hi, hheap, hplace => by
    obtain ⟨m₁, hswap, harray₁, hsame₁⟩ := doSwap_spec h (show 1 ≤ 1 ∧ 1 ≤ cnt by omega)
      (show 1 ≤ i + 2 ∧ i + 2 ≤ cnt by omega) (by omega)
    have hplace₁ := hplace.swap_root hheap horder.refl horder.trans
    obtain ⟨m₂, f₂, hsift, harray₂, hperm₂, hheap₂, hsame₂⟩ := heapify_spec horder harray₁
      (show i + 1 ≤ cnt by omega) (Nat.le_refl 1) (show 1 ≤ 1 ∧ 1 ≤ i + 1 by omega) hheap.swap_root
    obtain ⟨m', f', hloop, harray', hperm', hplace', hsame'⟩ :=
      sortLoop_spec horder harray₂ (by omega) hheap₂ (hplace₁.rearrange hperm₂)
    refine ⟨m', f', ?_, harray', ?_, hplace', (hsame₁.trans hsame₂).trans hsame'⟩
    · simp only [sortLoop, hswap, Option.bind_eq_bind, Option.bind_some]
      exact hsift.bind hloop
    · exact (Rearranged.swap f (by omega) (by omega)).trans ((hperm₂.mono (by omega)).trans hperm')

/-- `sort` puts the elements in order. -/
theorem sort_spec (horder : IsTotalPreorder compare) (h : IsArray m array cnt f) (hsize : 0 < size)
    (hnull : array ≠ 0 ∨ cnt = 0) : ∃ m' f',
      Returns (fun fuel ↦ sort array size compare fuel m cnt) m' ∧ IsArray m' array cnt f' ∧
        Rearranged cnt f f' ∧ InPlace (AtMost compare) f' 1 cnt ∧
        SameOutside m m' array (cnt * size) := by
  obtain ⟨m₁, f₁, hbuild, harray₁, hperm₁, hheap₁, hsame₁⟩ :=
    buildLoop_spec (i := cnt / 2) horder h (by omega) (isHeap_of_lt (by omega))
  obtain ⟨m', f', hsort, harray', hperm', hplace, hsame'⟩ :=
    sortLoop_spec horder harray₁ (Nat.le_refl cnt) hheap₁ (inPlace_self _ _ _)
  refine ⟨m', f', ?_, harray', hperm₁.trans hperm', hplace, hsame₁.trans hsame'⟩
  simp only [sort, if_neg (not_not.mpr hnull), if_neg (not_not.mpr hsize)]
  exact hbuild.bind hsort

end Jungle.Stdlib
