import Jungle.Paging.Updates
import Mathlib.Data.List.Nodup

/-!
# `pml4_for_each`

The functions of `threads/mmu.c` that call a function for the entries of a page table. The function called
does not change the tables; it gets what `aux` points to and returns it with its result. `leaves` lists the
present entries of the last level with their addresses, in the order of the indices.
-/

set_option autoImplicit false
set_option relaxedAutoImplicit false

namespace Jungle.Paging

open Jungle.Lib

/-! ### The functions -/

section Functions

variable {Aux : Type} (func : Slot → ℕ → Aux → Bool × Aux)

/-- A loop that returns false as soon as one of its rounds does. -/
def everyIndex (visit : ℕ → Aux → Option (Bool × Aux)) : List ℕ → Aux → Option (Bool × Aux)
  | [], aux => some (true, aux)
  | i :: is, aux => do
    match ← visit i aux with
    | (true, aux) => everyIndex visit is aux
    | (false, aux) => return (false, aux)

/-- The indices of a table, which are those below `PGSIZE / sizeof(uint64_t *)`. -/
def allIndices : List ℕ := List.range (pgSize / 8)

/-- `pt_for_each (pt, func, aux, pml4_index, pdp_index, pdx_index)` -/
def ptForEach (s : Machine) (pt : ℕ) (aux : Aux) (pml4Index pdpIndex pdxIndex : ℕ) :
    Option (Bool × Aux) :=
  everyIndex (fun i aux ↦ do
    if present (← readEntry s pt i) then
      let va := (pml4Index <<< 39) ||| (pdpIndex <<< 30) ||| (pdxIndex <<< 21) ||| (i <<< 12)
      return func ⟨pt, i⟩ va aux
    else return (true, aux)) allIndices aux

/-- The common part of the functions above the last level: goes on to the tables behind the present
entries with `next`, and tests the flag after the translation of the entry. -/
def forEachTable (next : ℕ → Aux → ℕ → Option (Bool × Aux)) (s : Machine) (table : ℕ) (aux : Aux) :
    Option (Bool × Aux) :=
  everyIndex (fun i aux ↦ do
    let pte := ptov (← readEntry s table i)
    if present pte then next (pteAddr pte) aux i else return (true, aux)) allIndices aux

/-- `pgdir_for_each (pdp, func, aux, pml4_index, pdp_index)` -/
def pgdirForEach (s : Machine) (pdp : ℕ) (aux : Aux) (pml4Index pdpIndex : ℕ) : Option (Bool × Aux) :=
  forEachTable (fun pte aux i ↦ ptForEach func s pte aux pml4Index pdpIndex i) s pdp aux

/-- `pdp_for_each (pdp, func, aux, pml4_index)` -/
def pdpForEach (s : Machine) (pdp : ℕ) (aux : Aux) (pml4Index : ℕ) : Option (Bool × Aux) :=
  forEachTable (fun pde aux i ↦ pgdirForEach func s pde aux pml4Index i) s pdp aux

/-- `pml4_for_each (pml4, func, aux)` -/
def pml4ForEach (s : Machine) (pml4 : ℕ) (aux : Aux) : Option (Bool × Aux) :=
  forEachTable (fun pdpe aux i ↦ pdpForEach func s pdpe aux i) s pml4 aux

/-- Calls in order, up to the first one that returns false. -/
def callAll : List (Slot × ℕ) → Aux → Bool × Aux
  | [], aux => (true, aux)
  | (pte, va) :: calls, aux =>
    match func pte va aux with
    | (true, aux) => callAll calls aux
    | (false, aux) => (false, aux)

end Functions

/-! ### Entries and addresses -/

/-- Translating an entry does not change its flag, and commutes with taking its address. -/
theorem present_ptov (entry : ℕ) : present (ptov entry) = present entry := by
  rw [Bool.eq_iff_iff, present_iff, present_iff]
  unfold ptov kernBase
  omega

theorem pteAddr_ptov (entry : ℕ) : pteAddr (ptov entry) = ptov (pteAddr entry) := by
  rw [pteAddr_eq, pteAddr_eq]
  unfold ptov kernBase
  omega

/-- The address that is built from indices. -/
theorem va_eq {i j k l : ℕ} (hj : j < 512) (hk : k < 512) (hl : l < 512) :
    (i <<< 39) ||| (j <<< 30) ||| (k <<< 21) ||| (l <<< 12) =
      4096 * (((i * 512 + j) * 512 + k) * 512 + l) := by
  have hstep : ∀ a b n, b < 2 ^ n → 2 ^ n * a ||| b = 2 ^ n * a + b := fun a b n hb ↦
    (Nat.two_pow_add_eq_or_of_lt hb a).symm
  rw [Nat.shiftLeft_eq, Nat.shiftLeft_eq, Nat.shiftLeft_eq, Nat.shiftLeft_eq, Nat.mul_comm i,
    hstep i (j * 2 ^ 30) 39 (by omega),
    show 2 ^ 39 * i + j * 2 ^ 30 = 2 ^ 30 * (512 * i + j) by omega,
    hstep _ (k * 2 ^ 21) 30 (by omega),
    show 2 ^ 30 * (512 * i + j) + k * 2 ^ 21 = 2 ^ 21 * (512 * (512 * i + j) + k) by omega,
    hstep _ (l * 2 ^ 12) 21 (by omega)]
  omega

/-- The indices of the address that is built from indices. -/
theorem indices_va {i j k l : ℕ} (hi : i < 512) (hj : j < 512) (hk : k < 512) (hl : l < 512) :
    indices (4096 * (((i * 512 + j) * 512 + k) * 512 + l)) = [i, j, k] ∧
      ptx (4096 * (((i * 512 + j) * 512 + k) * 512 + l)) = l := by
  unfold indices pml4 Paging.pdpe pdx ptx
  simp only [index_eq, List.cons.injEq, and_true]
  omega

/-- An address of a page is built from its indices. -/
theorem va_of_indices {va : ℕ} (haligned : va % pgSize = 0) (hva : va < 2 ^ 48) :
    va = 4096 * (((pml4 va * 512 + Paging.pdpe va) * 512 + pdx va) * 512 + ptx va) := by
  unfold pgSize at haligned
  unfold pml4 Paging.pdpe pdx ptx
  simp only [index_eq]
  omega

/-! ### Calls -/

section Calls

variable {Aux : Type} {func : Slot → ℕ → Aux → Bool × Aux} {s : Machine} {label : Labels}

theorem callAll_append (calls calls' : List (Slot × ℕ)) (aux : Aux) :
    callAll func (calls ++ calls') aux = match callAll func calls aux with
      | (true, aux) => callAll func calls' aux
      | (false, aux) => (false, aux) := by
  induction calls generalizing aux with
  | nil => rfl
  | cons call calls ih =>
    rw [List.cons_append, callAll, callAll]
    rcases func call.1 call.2 aux with ⟨_ | _, aux'⟩
    · rfl
    · exact ih aux'

theorem callAll_singleton (pte : Slot) (va : ℕ) (aux : Aux) :
    callAll func [(pte, va)] aux = func pte va aux := by
  rw [callAll]
  rcases func pte va aux with ⟨_ | _, aux'⟩ <;> rfl

/-- A loop whose rounds make calls makes all of them. -/
theorem everyIndex_eq {visit : ℕ → Aux → Option (Bool × Aux)} {calls : ℕ → List (Slot × ℕ)}
    (is : List ℕ) (hvisit : ∀ i ∈ is, ∀ aux, visit i aux = some (callAll func (calls i) aux))
    (aux : Aux) : everyIndex visit is aux = some (callAll func (is.flatMap calls) aux) := by
  induction is generalizing aux with
  | nil => rfl
  | cons i is ih =>
    rw [List.forall_mem_cons] at hvisit
    rw [everyIndex, hvisit.1 aux, List.flatMap_cons, callAll_append, Option.bind_eq_bind,
      Option.bind_some]
    rcases callAll func (calls i) aux with ⟨_ | _, aux'⟩
    · rfl
    · exact ih hvisit.2 aux'

/-- The entry of a table. -/
def entryOf (s : Machine) (table idx : ℕ) : ℕ := (readEntry s table idx).getD 0

/-- The present entries of the last level so many levels below a table, with their addresses; `front` is
the number that the indices leading to the table make. -/
def leaves (s : Machine) : ℕ → ℕ → ℕ → List (Slot × ℕ)
  | 0, table, front => allIndices.flatMap fun i ↦
    if present (entryOf s table i) then [(⟨table, i⟩, 4096 * (front * 512 + i))] else []
  | level + 1, table, front => allIndices.flatMap fun i ↦
    if present (entryOf s table i) then
      leaves s level (ptov (pteAddr (entryOf s table i))) (front * 512 + i)
    else []

theorem entryOf_eq {table : ℕ} {entries : ℕ → ℕ} (hentries : s.pages table = some entries) (i : ℕ) :
    entryOf s table i = entries i := by
  rw [entryOf, readEntry_eq hentries, Option.getD_some]

theorem mem_allIndices {i : ℕ} : i ∈ allIndices ↔ i < 512 := List.mem_range

/-! ### What the functions call -/

variable {table front n : ℕ} {entries : ℕ → ℕ} {o : Owner}

theorem ptForEach_eq {i j k : ℕ} (hj : j < 512) (hk : k < 512) (hentries : s.pages table = some entries)
    (aux : Aux) : ptForEach func s table aux i j k =
      some (callAll func (leaves s 0 table ((i * 512 + j) * 512 + k)) aux) := by
  refine everyIndex_eq allIndices (fun l hl aux ↦ ?_) aux
  rw [readEntry_eq hentries, entryOf_eq hentries, Option.bind_eq_bind, Option.bind_some]
  by_cases hpresent : present (entries l)
  · rw [if_pos hpresent, if_pos hpresent, va_eq hj hk (mem_allIndices.mp hl), callAll_singleton]
    rfl
  · rw [if_neg hpresent, if_neg hpresent]
    rfl

/-- The functions above the last level. -/
theorem forEachTable_eq {next : ℕ → Aux → ℕ → Option (Bool × Aux)}
    (hentries : s.pages table = some entries)
    (hnext : ∀ i < 512, present (entries i) → ∀ aux, next (ptov (pteAddr (entries i))) aux i =
      some (callAll func (leaves s n (ptov (pteAddr (entries i))) (front * 512 + i)) aux)) (aux : Aux) :
    forEachTable next s table aux = some (callAll func (leaves s (n + 1) table front) aux) := by
  refine everyIndex_eq allIndices (fun i hi aux ↦ ?_) aux
  rw [readEntry_eq hentries, entryOf_eq hentries, Option.bind_eq_bind, Option.bind_some]
  simp only [present_ptov, pteAddr_ptov]
  by_cases hpresent : present (entries i)
  · rw [if_pos hpresent, if_pos hpresent]
    exact hnext i (mem_allIndices.mp hi) hpresent aux
  · rw [if_neg hpresent, if_neg hpresent]
    rfl

/-- A labelled table is a page. -/
theorem Owned.exists_entries (h : Owned s label) (hlabel : label table = some (n, o)) :
    ∃ entries, s.pages table = some entries :=
  Option.isSome_iff_exists.mp (h.page table _ hlabel).2

theorem pgdirForEach_eq {i j : ℕ} (hj : j < 512) (h : Owned s label)
    (hlabel : label table = some (1, o)) (aux : Aux) : pgdirForEach func s table aux i j =
      some (callAll func (leaves s 1 table (i * 512 + j)) aux) := by
  obtain ⟨entries, hentries⟩ := h.exists_entries hlabel
  refine forEachTable_eq hentries (fun k hk hpresent aux ↦ ?_) aux
  obtain ⟨entries', hentries'⟩ := h.exists_entries (h.child hlabel hentries hpresent)
  exact ptForEach_eq hj hk hentries' aux

theorem pdpForEach_eq {i : ℕ} (h : Owned s label) (hlabel : label table = some (2, o)) (aux : Aux) :
    pdpForEach func s table aux i = some (callAll func (leaves s 2 table i) aux) := by
  obtain ⟨entries, hentries⟩ := h.exists_entries hlabel
  refine forEachTable_eq hentries (fun j hj hpresent aux ↦ ?_) aux
  exact pgdirForEach_eq hj h (h.child hlabel hentries hpresent) aux

theorem TopLevel.pml4ForEach_eq {root : ℕ} {owners : ℕ → Owner} (h : TopLevel s label root owners entries)
    (howned : Owned s label) (aux : Aux) :
    pml4ForEach func s root aux = some (callAll func (leaves s 3 root 0) aux) := by
  refine forEachTable_eq h.page (fun i _ hpresent aux ↦ ?_) aux
  rw [Nat.zero_mul, Nat.zero_add]
  exact pdpForEach_eq howned (h.child hpresent) aux

end Calls

/-! ### The leaves -/

section Leaves

variable {s : Machine} {label : Labels} {table front n : ℕ} {entries : ℕ → ℕ} {o : Owner} {pte : Slot}
  {va : ℕ}

/-- An entry of the last level that a walk finds is present, and the address is built from the indices of
the walk. -/
def LeafAt (s : Machine) (level table front : ℕ) (pte : Slot) (va : ℕ) : Prop :=
  ∃ is l, is.length = level ∧ (∀ i ∈ is, i < 512) ∧ l < 512 ∧ find l is s table = some (some pte) ∧
    present (entryOf s pte.table pte.idx) ∧ va = 4096 * (is.foldl (fun x i ↦ x * 512 + i) front * 512 + l)

theorem mem_leaves_zero : (pte, va) ∈ leaves s 0 table front ↔ LeafAt s 0 table front pte va := by
  simp only [leaves, List.mem_flatMap, mem_allIndices]
  constructor
  · rintro ⟨l, hl, hmem⟩
    split_ifs at hmem with hpresent
    · obtain ⟨rfl, rfl⟩ := Prod.mk.inj (List.mem_singleton.mp hmem)
      exact ⟨[], l, rfl, nofun, hl, rfl, hpresent, rfl⟩
    · exact absurd hmem List.not_mem_nil
  · rintro ⟨is, l, hlength, -, hl, hfind, hpresent, rfl⟩
    obtain rfl := List.length_eq_zero_iff.mp hlength
    obtain rfl := Option.some.inj (Option.some.inj hfind)
    refine ⟨l, hl, ?_⟩
    rw [if_pos hpresent]
    exact List.mem_singleton_self _

theorem mem_leaves_succ (htable : table ≠ 0) (hentries : s.pages table = some entries)
    (hchild : ∀ i, present (entries i) → ∀ pte va front,
      (pte, va) ∈ leaves s n (ptov (pteAddr (entries i))) front ↔
        LeafAt s n (ptov (pteAddr (entries i))) front pte va) :
    (pte, va) ∈ leaves s (n + 1) table front ↔ LeafAt s (n + 1) table front pte va := by
  simp only [leaves, List.mem_flatMap, mem_allIndices, entryOf_eq hentries]
  constructor
  · rintro ⟨i, hi, hmem⟩
    split_ifs at hmem with hpresent
    · obtain ⟨is, l, rfl, his, hl, hfind, hleaf, hva⟩ := (hchild i hpresent _ _ _).mp hmem
      refine ⟨i :: is, l, rfl, List.forall_mem_cons.mpr ⟨hi, his⟩, hl, ?_, hleaf, hva⟩
      rwa [find_cons htable hentries hpresent]
    · exact absurd hmem List.not_mem_nil
  · rintro ⟨is, l, hlength, his, hl, hfind, hleaf, hva⟩
    obtain ⟨i, is, rfl⟩ := List.exists_cons_of_length_eq_add_one hlength
    rw [List.forall_mem_cons] at his
    by_cases hpresent : present (entries i)
    · rw [find_cons htable hentries hpresent] at hfind
      refine ⟨i, his.1, ?_⟩
      rw [if_pos hpresent]
      exact (hchild i hpresent _ _ _).mpr
        ⟨is, l, Nat.succ.inj hlength, his.2, hl, hfind, hleaf, hva⟩
    · rw [find, if_neg htable, readEntry_eq hentries, Option.bind_eq_bind, Option.bind_some,
        if_neg hpresent] at hfind
      exact absurd (Option.some.inj hfind) (by simp)

theorem Owned.mem_leaves (h : Owned s label) (hlabel : label table = some (n, o)) (pte : Slot)
    (va front : ℕ) : (pte, va) ∈ leaves s n table front ↔ LeafAt s n table front pte va := by
  induction n generalizing table pte va front with
  | zero => exact mem_leaves_zero
  | succ n ih =>
    obtain ⟨entries, hentries⟩ := h.exists_entries hlabel
    exact mem_leaves_succ (h.page table _ hlabel).1 hentries fun i hpresent ↦
      ih (h.child hlabel hentries hpresent)

theorem TopLevel.mem_leaves {root : ℕ} {owners : ℕ → Owner} (h : TopLevel s label root owners entries)
    (howned : Owned s label) : (pte, va) ∈ leaves s 3 root 0 ↔ LeafAt s 3 root 0 pte va :=
  mem_leaves_succ h.nonzero h.page fun _ hpresent ↦ howned.mem_leaves (h.child hpresent)

/-- The addresses of the leaves of a table are those that begin with its indices. -/
theorem leaves_bounds {call : Slot × ℕ} (hcall : call ∈ leaves s n table front) :
    ∃ q, call.2 = 4096 * q ∧ front * 512 ^ (n + 1) ≤ q ∧ q < (front + 1) * 512 ^ (n + 1) := by
  induction n generalizing table front with
  | zero =>
    simp only [leaves, List.mem_flatMap, mem_allIndices] at hcall
    obtain ⟨i, hi, hmem⟩ := hcall
    split_ifs at hmem
    · obtain rfl := List.mem_singleton.mp hmem
      exact ⟨_, rfl, by omega, by omega⟩
    · exact absurd hmem List.not_mem_nil
  | succ n ih =>
    simp only [leaves, List.mem_flatMap, mem_allIndices] at hcall
    obtain ⟨i, hi, hmem⟩ := hcall
    split_ifs at hmem
    · obtain ⟨q, hq, hlow, hhigh⟩ := ih hmem
      have hpow : 512 ^ (n + 1 + 1) = 512 * 512 ^ (n + 1) := Nat.pow_succ'
      have hlow' := Nat.mul_le_mul_right (512 ^ (n + 1)) (show front * 512 ≤ front * 512 + i by omega)
      have hhigh' := Nat.mul_le_mul_right (512 ^ (n + 1))
        (show front * 512 + i + 1 ≤ (front + 1) * 512 by omega)
      rw [Nat.mul_assoc] at hlow' hhigh'
      exact ⟨q, hq, by rw [hpow]; omega, by rw [hpow]; omega⟩
    · exact absurd hmem List.not_mem_nil

/-- The leaves are in the order of their addresses. -/
theorem leaves_pairwise (s : Machine) (n table front : ℕ) :
    (leaves s n table front).Pairwise fun a b ↦ a.2 < b.2 := by
  induction n generalizing table front with
  | zero =>
    refine List.pairwise_flatMap.mpr ⟨fun i _ ↦ ?_, List.pairwise_lt_range.imp fun hij x hx y hy ↦ ?_⟩
    · split_ifs
      · exact List.pairwise_singleton ..
      · exact List.Pairwise.nil
    · split_ifs at hx hy
      · obtain rfl := List.mem_singleton.mp hx
        obtain rfl := List.mem_singleton.mp hy
        simp only
        omega
      all_goals first | exact absurd hx List.not_mem_nil | exact absurd hy List.not_mem_nil
  | succ n ih =>
    refine List.pairwise_flatMap.mpr ⟨fun i _ ↦ ?_, List.pairwise_lt_range.imp fun {i j} hij x hx y hy ↦ ?_⟩
    · split_ifs
      · exact ih ..
      · exact List.Pairwise.nil
    · split_ifs at hx hy
      · obtain ⟨q, hq, -, hhigh⟩ := leaves_bounds hx
        obtain ⟨q', hq', hlow, -⟩ := leaves_bounds hy
        have hle := Nat.mul_le_mul_right (512 ^ (n + 1))
          (show front * 512 + i + 1 ≤ front * 512 + j by omega)
        omega
      all_goals first | exact absurd hx List.not_mem_nil | exact absurd hy List.not_mem_nil

/-- A walk that creates nothing. -/
theorem pml4eWalk_false_iff {root : ℕ} : pml4eWalk s root va false = some (some pte, s) ↔
    find (ptx va) (indices va) s root = some (some pte) := by
  rw [pml4eWalk_eq, walk_false, Option.map_eq_some_iff]
  constructor
  · rintro ⟨pte', hfind, heq⟩
    rw [hfind, (Prod.mk.inj heq).1]
  · exact fun hfind ↦ ⟨some pte, hfind, rfl⟩

/-- The leaves of a top-level table are the present entries that walks find, with the addresses of their
pages. -/
theorem TopLevel.mem_leaves_iff {root : ℕ} {owners : ℕ → Owner}
    (h : TopLevel s label root owners entries) (howned : Owned s label) :
    (pte, va) ∈ leaves s 3 root 0 ↔ va % pgSize = 0 ∧ va < 2 ^ 48 ∧
      pml4eWalk s root va false = some (some pte, s) ∧ present (entryOf s pte.table pte.idx) := by
  rw [h.mem_leaves howned, pml4eWalk_false_iff]
  constructor
  · rintro ⟨is, l, hlength, his, hl, hfind, hpresent, rfl⟩
    obtain ⟨i, j, k, rfl⟩ := List.length_eq_three.mp hlength
    simp only [List.forall_mem_cons] at his
    obtain ⟨hi, hj, hk, -⟩ := his
    simp only [List.foldl_cons, List.foldl_nil, Nat.zero_mul, Nat.zero_add]
    obtain ⟨hindices, hptx⟩ := indices_va hi hj hk hl
    refine ⟨Nat.mul_mod_right .., by omega, ?_, hpresent⟩
    rwa [hindices, hptx]
  · rintro ⟨haligned, hva, hfind, hpresent⟩
    have hindex : ∀ shift, (va >>> shift) &&& 0x1FF < 512 := fun shift ↦ by
      rw [index_eq]
      exact Nat.mod_lt _ (by decide)
    refine ⟨indices va, ptx va, rfl, ?_, hindex 12, hfind, hpresent, ?_⟩
    · simp only [indices, List.forall_mem_cons, List.not_mem_nil, false_implies, implies_true, and_true]
      exact ⟨hindex 39, hindex 30, hindex 21⟩
    · simpa [indices] using va_of_indices haligned hva

/-- No two leaves are the same entry. -/
theorem TopLevel.leaves_nodup {root : ℕ} {owners : ℕ → Owner}
    (h : TopLevel s label root owners entries) (howned : Owned s label)
    (howners : ∀ i j, owners i = owners j → i = j) : ((leaves s 3 root 0).map Prod.fst).Nodup := by
  refine List.pairwise_map.mpr ((leaves_pairwise s 3 root 0).imp_of_mem fun {a b} ha hb hlt heq ↦ ?_)
  obtain ⟨haligned, hva, hwalk, -⟩ := (h.mem_leaves_iff howned).mp ha
  obtain ⟨haligned', hva', hwalk', -⟩ := (h.mem_leaves_iff howned).mp hb
  obtain ⟨hindices, hptx⟩ := h.find_inj howned howners (pml4eWalk_false_iff.mp hwalk)
    (heq ▸ pml4eWalk_false_iff.mp hwalk')
  simp only [indices, List.cons.injEq, and_true] at hindices
  rw [va_of_indices haligned hva, va_of_indices haligned' hva', hindices.1, hindices.2.1,
    hindices.2.2, hptx] at hlt
  exact Nat.lt_irrefl _ hlt

end Leaves

/-- In every table after every run, `pml4_for_each` calls the function once for each present entry of the
last level, with the address of the page that a walk to the entry is for, and stops at the first call that
returns false. -/
theorem pml4ForEach_exact {kernel : Kernel} {s₀ s₁ : Machine} {memEnd base A : ℕ} {ops : List Op}
    {sys : System} (hinit : pagingInit kernel s₀ memEnd = some (base, s₁))
    (hrun : Run (Step base) ⟨s₁, []⟩ ops sys) (hA : A ∈ sys.tables) : ∃ calls : List (Slot × ℕ),
      (∀ pte va, (pte, va) ∈ calls ↔ va % pgSize = 0 ∧ va < 2 ^ 48 ∧
        pml4eWalk sys.machine A va false = some (some pte, sys.machine) ∧
        present (entryOf sys.machine pte.table pte.idx)) ∧
      (calls.map Prod.fst).Nodup ∧
      ∀ {Aux : Type} (func : Slot → ℕ → Aux → Bool × Aux) (aux : Aux),
        pml4ForEach func sys.machine A aux = some (callAll func calls aux) := by
  obtain ⟨-, label, kernelEntries, -, h, -⟩ := run_layout hinit hrun
  obtain ⟨-, entries, htop, -⟩ := h.root A hA
  exact ⟨leaves sys.machine 3 A 0, fun _ _ ↦ htop.mem_leaves_iff h.owned,
    htop.leaves_nodup h.owned fun _ _ ↦ ownerOf_inj, fun _ ↦ htop.pml4ForEach_eq h.owned⟩

/-- The entries of a table made after a boot are collected. -/
theorem pml4ForEach_exact_boot : ∃ base s₁ ops sys A,
    pagingInit ⟨0, 0⟩ bootMachine pgSize = some (base, s₁) ∧ Run (Step base) ⟨s₁, []⟩ ops sys ∧
      A ∈ sys.tables ∧ ∃ calls : List (Slot × ℕ), (calls.map Prod.fst).Nodup ∧
        pml4ForEach (fun pte va seen ↦ (true, (pte, va) :: seen)) sys.machine A [] =
          some (callAll (fun pte va seen ↦ (true, (pte, va) :: seen)) calls []) := by
  obtain ⟨base, s₁, ops, sys, A, -, hinit, -, hrun, hA, -⟩ := exists_two_tables
  obtain ⟨calls, -, hnodup, hcalls⟩ := pml4ForEach_exact hinit hrun hA
  exact ⟨base, s₁, ops, sys, A, hinit, hrun, hA, calls, hnodup, hcalls _ []⟩

end Jungle.Paging
