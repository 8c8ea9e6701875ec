import Jungle.KernelList.Sort
import Jungle.Lib.Neighbours

/-!
# `list_insert_ordered` and `list_unique`

The functions of `pintos/lib/kernel/list.c` on lists in order. `less` compares two elements and reads
nothing of their links. `list_unique` compares each element with the one it has kept last; the elements
that it removes are no longer in its list, and go to the end of another one if it is given one.
-/

set_option autoImplicit false
set_option relaxedAutoImplicit false

namespace Jungle.KernelList

open Jungle.Lib

/-! ### The functions -/

/-- One round of the loop of `list_insert_ordered(list, elem, less, aux)`. -/
def insertOrderedBody (m : Elems) (less : ℕ → ℕ → Bool) (list : KList) (elem e : ℕ) :
    Option (ℕ ⊕ ℕ) :=
  if e ≠ listEnd list then
    if less elem e then some (.inr e)
    else do return .inl (← (← listNext m e))
  else some (.inr e)

/-- `list_insert_ordered(list, elem, less, aux)` -/
def listInsertOrdered (fuel : ℕ) (m : Elems) (list : KList) (elem : ℕ) (less : ℕ → ℕ → Bool) :
    Option Elems := do
  let e ← whileLoop (insertOrderedBody m less list elem) fuel (← (← listBegin m list))
  listInsert m e elem

/-- Neither element is less than the other. -/
def equivalent (less : ℕ → ℕ → Bool) (a b : ℕ) : Bool := !less a b && !less b a

/-- One round of the loop of `list_unique(list, duplicates, less, aux)`. -/
def uniqueBody (less : ℕ → ℕ → Bool) (list : KList) (duplicates : Option KList) :
    Elems × ℕ → Option ((Elems × ℕ) ⊕ Elems)
  | (m, elem) => do
    let next ← (← listNext m elem)
    if next ≠ listEnd list then
      if equivalent less elem next then
        let (_, m) ← listRemove m next
        let m ← match duplicates with
          | some duplicates => listPushBack m duplicates next
          | none => some m
        return .inl (m, elem)
      else return .inl (m, next)
    else return .inr m

/-- `list_unique(list, duplicates, less, aux)` -/
def listUnique (fuel : ℕ) (m : Elems) (list : KList) (duplicates : Option KList)
    (less : ℕ → ℕ → Bool) : Option Elems := do
  if ← listEmpty m list then return m
  else
    let elem ← (← listBegin m list)
    whileLoop (uniqueBody less list duplicates) fuel (m, elem)

variable {ι : Type*} [DecidableEq ι] {lists : ι → KList} {σ : ι → List ℕ} {m m' : Elems} {i : ι}
  {F B : List ℕ} {e x elem : ℕ} {less : ℕ → ℕ → Bool}

/-! ### Inserting -/

omit [DecidableEq ι] in
/-- The loop of `list_insert_ordered` ends at the first element that is greater. -/
theorem insertOrdered_loop (h : Holds lists m σ) (hσ : σ i = F ++ B)
    (he : (B ++ [(lists i).tail]).head? = some e) : ∃ e',
      (B.dropWhile (fun x ↦ !less elem x) ++ [(lists i).tail]).head? = some e' ∧
        Returns (fun fuel ↦ whileLoop (insertOrderedBody m less (lists i) elem) fuel e) e' := by
  induction B generalizing F e with
  | nil =>
    obtain rfl := Option.some.inj he
    exact ⟨_, rfl, returns_leave (if_neg (not_not.mpr rfl))⟩
  | cons x B ih =>
    obtain rfl := Option.some.inj he
    have hne : x ≠ listEnd (lists i) := ne_tail_of_mem (h.nodup i) (by simp [hσ])
    cases hless : less elem x with
    | true =>
      refine ⟨x, by simp [hless], returns_leave ?_⟩
      rw [insertOrderedBody, if_pos hne, if_pos hless]
    | false =>
      obtain ⟨y, back, hy⟩ : ∃ y back, B ++ [(lists i).tail] = y :: back :=
        List.exists_cons_of_ne_nil (by simp)
      obtain ⟨e', he', hloop⟩ := ih (F := F ++ [x]) (e := y) (by rw [hσ, List.append_cons])
        (by rw [hy, List.head?_cons])
      refine ⟨e', by simpa [hless] using he', returns_continue ?_ hloop⟩
      rw [insertOrderedBody, if_pos hne, hless, if_neg Bool.false_ne_true, h.listNext_eq hσ, hy]
      rfl

/-- `list_insert_ordered` puts its element in front of the first one that is greater. -/
theorem insertOrdered_returns (h : Holds lists m σ) (helem : (m elem).isSome)
    (hout : InNoList lists σ elem) : ∃ m',
      Returns (fun fuel ↦ listInsertOrdered fuel m (lists i) elem less) m' ∧
        Holds lists m' (Function.update σ i ((σ i).takeWhile (fun x ↦ !less elem x) ++
          elem :: (σ i).dropWhile fun x ↦ !less elem x)) := by
  obtain ⟨e, back, he⟩ : ∃ e back, σ i ++ [(lists i).tail] = e :: back :=
    List.exists_cons_of_ne_nil (by simp)
  obtain ⟨e', he', hloop⟩ := insertOrdered_loop (F := []) h rfl
    (by rw [he, List.head?_cons])
  obtain ⟨back', hback'⟩ := List.head?_eq_some_iff.mp he'
  have hsplit : σ i ++ [(lists i).tail] =
      (σ i).takeWhile (fun x ↦ !less elem x) ++ e' :: back' := by
    rw [← hback', ← List.append_assoc, List.takeWhile_append_dropWhile]
  have hmem : e' ∈ σ i ++ [(lists i).tail] := hsplit ▸ List.mem_append_right _ List.mem_cons_self
  obtain ⟨m', hinsert, hholds⟩ := holds_insert h hmem helem hout
  have hfront : e' ∉ (σ i).takeWhile fun x ↦ !less elem x := by
    have hnodup := h.nodup i
    rw [nodes, hsplit] at hnodup
    grind
  have hseq : insertBefore (σ i) e' [elem] = (σ i).takeWhile (fun x ↦ !less elem x) ++
      elem :: (σ i).dropWhile fun x ↦ !less elem x := by
    have hconcat := insertBefore_concat hsplit hfront h.tail_not_mem [elem]
    rw [← hback'] at hconcat
    refine List.append_cancel_right (hconcat.trans ?_)
    simp
  refine ⟨m', ?_, hseq ▸ hholds⟩
  have hbegin : listBegin m (lists i) = some (some e) := by
    rw [h.listBegin_eq, he, List.head?_cons]
  unfold listInsertOrdered
  simp only [hbegin, Option.bind_eq_bind, Option.bind_some]
  exact hloop.bind (returns_const hinsert)

/-! ### Removing repeats -/

/-- What `list_unique` makes of the lists. -/
def uniqueLists (less : ℕ → ℕ → Bool) (σ : ι → List ℕ) (i : ι) (duplicates : Option ι) :
    ι → List ℕ := fun k ↦
  if k = i then firsts (equivalent less) (σ i)
  else if some k = duplicates then σ k ++ repeats (equivalent less) (σ i)
  else σ k

section Unique

variable {duplicates : Option ι} {y : ℕ}

omit [DecidableEq ι] in
/-- A round of the loop of `list_unique` at the end of its list. -/
theorem uniqueBody_end (h : Holds lists m σ) (hσ : σ i = F ++ [x]) (list : Option KList) :
    uniqueBody less (lists i) list (m, x) = some (.inr m) := by
  have hnext : listNext m x = some (some (listEnd (lists i))) := h.listNext_eq hσ
  unfold uniqueBody
  dsimp only [Bind.bind]
  rw [hnext, Option.bind_some, Option.bind_some, if_neg (not_not.mpr rfl)]
  rfl

omit [DecidableEq ι] in
/-- A round of the loop of `list_unique` that keeps the next element. -/
theorem uniqueBody_keep (h : Holds lists m σ) (hσ : σ i = F ++ x :: y :: B)
    (hxy : equivalent less x y = false) (list : Option KList) :
    uniqueBody less (lists i) list (m, x) = some (.inl (m, y)) := by
  have hnext : listNext m x = some (some y) := h.listNext_eq hσ
  have hne : y ≠ listEnd (lists i) := ne_tail_of_mem (h.nodup i) (by simp [hσ])
  unfold uniqueBody
  dsimp only [Bind.bind]
  rw [hnext, Option.bind_some, Option.bind_some, if_pos hne, hxy]
  rfl

/-- A round of the loop of `list_unique` that removes the next element. -/
theorem uniqueBody_remove (h : Holds lists m σ) (hσ : σ i = F ++ x :: y :: B)
    (hxy : equivalent less x y = true) (hdup : duplicates ≠ some i) : ∃ m',
      uniqueBody less (lists i) (duplicates.map lists) (m, x) = some (.inl (m', x)) ∧
        Holds lists m' fun k ↦ if k = i then F ++ x :: B
          else if some k = duplicates then σ k ++ [y] else σ k := by
  have hnext : listNext m x = some (some y) := h.listNext_eq hσ
  have hne : y ≠ listEnd (lists i) := ne_tail_of_mem (h.nodup i) (by simp [hσ])
  have hσ' : σ i = (F ++ [x]) ++ y :: B := by rw [hσ, List.append_cons]
  obtain ⟨m₁, z, hremove, -, hholds₁⟩ := holds_remove h hσ'
  cases duplicates with
  | none =>
    refine ⟨m₁, ?_, ?_⟩
    · unfold uniqueBody
      dsimp only [Bind.bind]
      rw [hnext, Option.bind_some, Option.bind_some, if_pos hne, hxy, if_pos rfl, hremove]
      rfl
    · convert hholds₁ using 2 with k
      by_cases hk : k = i
      · subst hk
        simp
      · simp [hk]
  | some d =>
    have hdi : d ≠ i := fun heq ↦ hdup (congrArg some heq)
    have hcell : (m₁ y).isSome := by
      rw [listRemove_allocated hremove]
      exact (h.ring i).allocated (by simp [nodes, hσ])
    obtain ⟨m', hpush, hholds'⟩ := holds_pushBack (i := d) hholds₁ hcell (h.inNoList hσ')
    refine ⟨m', ?_, ?_⟩
    · unfold uniqueBody
      dsimp only [Bind.bind]
      rw [hnext, Option.bind_some, Option.bind_some, if_pos hne, hxy, if_pos rfl, hremove,
        Option.bind_some, Option.map_some]
      dsimp only
      rw [hpush]
      rfl
    · convert hholds' using 2 with k
      by_cases hk : k = i
      · subst hk
        simp [hdi.symm]
      · by_cases hkd : k = d
        · subst hkd
          simp [hdi]
        · simp [hk, hkd]

section Classes

variable (horder : IsStrictWeakOrder ℕ fun a b ↦ less a b)

omit [DecidableEq ι] in
theorem equivalent_symm (a b : ℕ) (hab : equivalent less a b) : equivalent less b a := by
  rwa [equivalent, Bool.and_comm]

include horder

omit [DecidableEq ι] in
theorem equivalent_trans (a b c : ℕ) (hab : equivalent less a b) (hbc : equivalent less b c) :
    equivalent less a c := by
  simp only [equivalent, Bool.and_eq_true, Bool.not_eq_true', Bool.eq_false_iff] at hab hbc ⊢
  exact horder.incomp_trans a b c hab hbc

/-- The loop of `list_unique`. -/
theorem unique_loop (h : Holds lists m σ) (hσ : σ i = F ++ x :: B) (hdup : duplicates ≠ some i) :
    ∃ m', Returns (fun fuel ↦
        whileLoop (uniqueBody less (lists i) (duplicates.map lists)) fuel (m, x)) m' ∧
      Holds lists m' fun k ↦ if k = i then F ++ firsts (equivalent less) (x :: B)
        else if some k = duplicates then σ k ++ repeats (equivalent less) (x :: B) else σ k := by
  induction B generalizing m σ F x with
  | nil =>
    refine ⟨m, returns_leave (uniqueBody_end h hσ _), ?_⟩
    convert h using 2 with k
    by_cases hk : k = i
    · subst hk
      rw [if_pos rfl, hσ]
      rfl
    · have hnil : repeats (equivalent less) [x] = [] := rfl
      rw [if_neg hk, hnil, List.append_nil, ite_self]
  | cons y B ih =>
    cases hxy : equivalent less x y with
    | true =>
      obtain ⟨m₁, hround, hholds₁⟩ := uniqueBody_remove h hσ hxy hdup
      obtain ⟨m', hloop, hholds'⟩ := ih hholds₁ (if_pos rfl)
      refine ⟨m', returns_continue hround hloop, ?_⟩
      rw [firsts_cons_of_same equivalent_symm (equivalent_trans horder) hxy,
        repeats_cons_of_same equivalent_symm (equivalent_trans horder) hxy]
      convert hholds' using 2 with k
      by_cases hk : k = i
      · rw [if_pos hk, if_pos hk]
      · by_cases hkd : some k = duplicates
        · simp [hk, hkd]
        · simp [hk, hkd]
    | false =>
      have hσ' : σ i = (F ++ [x]) ++ y :: B := by rw [hσ, List.append_cons]
      obtain ⟨m', hloop, hholds'⟩ := ih h hσ'
      refine ⟨m', returns_continue (uniqueBody_keep h hσ hxy _) hloop, ?_⟩
      rw [firsts_cons_of_ne hxy, repeats_cons_of_ne hxy, List.append_cons]
      exact hholds'

/-- `list_unique` keeps the first element of each run, and the removed elements go to the end of the
other list. -/
theorem unique_returns (h : Holds lists m σ) (hdup : duplicates ≠ some i) : ∃ m',
    Returns (fun fuel ↦ listUnique fuel m (lists i) (duplicates.map lists) less) m' ∧
      Holds lists m' (uniqueLists less σ i duplicates) := by
  cases hσ : σ i with
  | nil =>
    refine ⟨m, ⟨0, fun fuel _ ↦ by simp [listUnique, h.listEmpty_eq, hσ]⟩, ?_⟩
    have hsame : uniqueLists less σ i duplicates = σ := by
      funext k
      have hnil : repeats (equivalent less) [] = [] := rfl
      rw [uniqueLists, hσ, hnil, List.append_nil, ite_self]
      split_ifs with hk
      · rw [hk, hσ]
        rfl
      · rfl
    rwa [hsame]
  | cons x B =>
    obtain ⟨m', hloop, hholds⟩ := unique_loop (F := []) horder h hσ hdup
    have hfinal : uniqueLists less σ i duplicates = fun k ↦
        if k = i then [] ++ firsts (equivalent less) (x :: B)
        else if some k = duplicates then σ k ++ repeats (equivalent less) (x :: B) else σ k := by
      funext k
      rw [uniqueLists, hσ, List.nil_append]
    refine ⟨m', ?_, hfinal ▸ hholds⟩
    have hempty : listEmpty m (lists i) = some false := by simp [h.listEmpty_eq, hσ]
    have hbegin : listBegin m (lists i) = some (some x) := by
      rw [h.listBegin_eq, hσ]
      rfl
    simp only [listUnique, hempty, hbegin, Option.bind_eq_bind, Option.bind_some, Bool.false_eq_true,
      if_false]
    exact hloop

/-- An element is put behind the elements of a list in order that are not greater. -/
theorem insertOrdered_sorted (h : Holds lists m σ) (helem : (m elem).isSome)
    (hout : InNoList lists σ elem) (hsorted : (σ i).Pairwise fun a b ↦ less b a = false) :
    ∃ m' F B, Returns (fun fuel ↦ listInsertOrdered fuel m (lists i) elem less) m' ∧
      Holds lists m' (Function.update σ i (F ++ elem :: B)) ∧ σ i = F ++ B ∧
      (∀ x ∈ B, less elem x = true) ∧ (F ++ elem :: B).Pairwise fun a b ↦ less b a = false := by
  obtain ⟨m', hreturns, hholds⟩ := insertOrdered_returns h helem hout
  have hsplit := List.takeWhile_append_dropWhile (p := fun x ↦ !less elem x) (l := σ i)
  have hfront : ∀ x ∈ (σ i).takeWhile (fun x ↦ !less elem x), less elem x = false := fun x hx ↦ by
    simpa using List.mem_takeWhile_imp hx
  have hback : ∀ x ∈ (σ i).dropWhile (fun x ↦ !less elem x), less elem x = true := by
    intro x hx
    cases hdrop : (σ i).dropWhile (fun x ↦ !less elem x) with
    | nil =>
      rw [hdrop] at hx
      exact absurd hx List.not_mem_nil
    | cons b B =>
      have hb : less elem b = true := by
        have hnot := List.dropWhile_get_zero_not (fun x ↦ !less elem x) (σ i) (by simp [hdrop])
        simpa [hdrop] using hnot
      rw [← hsplit, hdrop] at hsorted
      obtain ⟨hbB, -⟩ := List.pairwise_cons.mp (List.pairwise_append.mp hsorted).2.1
      rw [hdrop] at hx
      rcases List.mem_cons.mp hx with rfl | hx
      · exact hb
      · by_contra hlt
        have hle := atMost_trans horder b x elem (by simp [atMost, hbB x hx]) (by simpa [atMost] using hlt)
        simp [atMost, hb] at hle
  refine ⟨m', _, _, hreturns, hholds, hsplit.symm, hback, ?_⟩
  rw [← hsplit] at hsorted
  obtain ⟨hF, hB, hFB⟩ := List.pairwise_append.mp hsorted
  refine List.pairwise_append.mpr ⟨hF, List.pairwise_cons.mpr ⟨fun x hx ↦ ?_, hB⟩, fun x hx y hy ↦ ?_⟩
  · by_contra hlt
    exact horder.irrefl x (horder.trans x elem x ((Bool.not_eq_false _).mp hlt) (hback x hx))
  · rcases List.mem_cons.mp hy with rfl | hy
    · exact hfront x hx
    · exact hFB x hx y hy

/-- On a list in order `list_unique` leaves no two equivalent elements. -/
theorem firsts_apart {l : List ℕ} (hsorted : l.Pairwise fun a b ↦ less b a = false) :
    (firsts (equivalent less) l).Pairwise fun a b ↦ equivalent less a b = false := by
  refine firsts_pairwise equivalent_symm (equivalent_trans horder) (fun a b c hab hbc hac ↦ ?_) l
    hsorted
  simp only [equivalent, Bool.and_eq_true, Bool.not_eq_true'] at hac ⊢
  refine ⟨?_, hab⟩
  have hle := atMost_trans horder b c a (by simp [atMost, hbc]) (by simp [atMost, hac.1])
  simpa [atMost] using hle

/-- `list_insert_ordered` keeps a list in order and puts its element behind every equivalent one.
`list_unique` leaves the first element of each run of equivalent neighbours, and no two equivalent
elements in a list in order; the others go to the end of the other list in their order. -/
theorem ordered_operations (h : Holds lists m σ) (i : ι) :
    (∀ elem, (m elem).isSome → InNoList lists σ elem →
      (σ i).Pairwise (fun a b ↦ less b a = false) →
      ∃ m' F B, Returns (fun fuel ↦ listInsertOrdered fuel m (lists i) elem less) m' ∧
        Holds lists m' (Function.update σ i (F ++ elem :: B)) ∧ σ i = F ++ B ∧
        (∀ x ∈ B, less elem x = true) ∧ (F ++ elem :: B).Pairwise fun a b ↦ less b a = false) ∧
      ∀ duplicates : Option ι, duplicates ≠ some i →
        ∃ m', Returns (fun fuel ↦ listUnique fuel m (lists i) (duplicates.map lists) less) m' ∧
          Holds lists m' (uniqueLists less σ i duplicates) ∧
          ((σ i).Pairwise (fun a b ↦ less b a = false) →
            (firsts (equivalent less) (σ i)).Pairwise fun a b ↦ equivalent less a b = false) := by
  refine ⟨fun elem helem hout ↦ insertOrdered_sorted horder h helem hout, fun duplicates hdup ↦ ?_⟩
  obtain ⟨m', hreturns, hholds⟩ := unique_returns horder h hdup
  exact ⟨m', hreturns, hholds, firsts_apart horder⟩

end Classes

omit [DecidableEq ι] in
/-- `list_unique` on a list of two elements that are not equivalent. -/
theorem ordered_operations_twoElems : ∃ m',
    Returns (fun fuel ↦ listUnique fuel twoElems ⟨0, 1⟩ none fun a b ↦ decide (a < b)) m' ∧
      Holds (fun _ : Unit ↦ ⟨0, 1⟩) m' fun _ ↦ [3, 2] := by
  obtain ⟨m', hreturns, hholds, -⟩ :=
    (ordered_operations isStrictWeakOrder_lt holds_twoElems ()).2 none nofun
  exact ⟨m', hreturns, hholds⟩

end Unique

end Jungle.KernelList
