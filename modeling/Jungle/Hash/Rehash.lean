import Jungle.Hash.Moves
import Mathlib.Data.Finset.Card
import Mathlib.Data.List.FinRange

/-!
# Rehashing

The buckets of a table hold a set of elements, each one in the bucket its hash selects (`Stored`).
`rehash` keeps this, whether or not it gets memory for new buckets.
-/

set_option autoImplicit false
set_option relaxedAutoImplicit false

namespace Jungle.Hash

open Jungle.Lib Jungle.KernelList

variable {hash : ℕ → UInt64} {less : ℕ → ℕ → Bool} {mem : ℕ → Option ℕ} {m m' : Elems}
  {h h' : Table} {buckets n a e : ℕ}

/-! ### Arrays of lists -/

/-- The heads and the tails of an array of lists. -/
theorem inArray_iff : InArray buckets n a ↔
    ∃ i < n, a = (bucketAt buckets i).head ∨ a = (bucketAt buckets i).tail := by
  simp only [InArray, bucketAt, listSize, elemSize]
  constructor
  · rintro ⟨hle, hlt, hmod⟩
    exact ⟨(a - buckets) / 32, by omega, by omega⟩
  · rintro ⟨i, hi, rfl | rfl⟩ <;> omega

theorem bucketAt_distinct (buckets i : ℕ) :
    (bucketAt buckets i).head ≠ (bucketAt buckets i).tail := by
  simp only [bucketAt, elemSize]
  omega

theorem bucketAt_disjoint (buckets : ℕ) {i j : ℕ} (hij : i ≠ j) :
    [(bucketAt buckets i).head, (bucketAt buckets i).tail].Disjoint
      [(bucketAt buckets j).head, (bucketAt buckets j).tail] := by
  intro a ha ha'
  simp only [bucketAt, listSize, elemSize, List.mem_cons, List.not_mem_nil, or_false] at ha ha'
  omega

/-- The memory that `malloc` returns holds no cell. -/
def Fresh (mem : ℕ → Option ℕ) (m : Elems) : Prop :=
  ∀ size block, mem size = some block → ∀ a, block ≤ a → a < block + size → m a = none

theorem Fresh.congr (hfresh : Fresh mem m) (hcells : ∀ a, (m' a).isSome = (m a).isSome) :
    Fresh mem m' := by
  intro size block hblock a hle hlt
  have hsame := hcells a
  rw [hfresh size block hblock a hle hlt] at hsame
  cases hcell : m' a with
  | none => rfl
  | some cell =>
    rw [hcell] at hsame
    simp at hsame

/-- New buckets are empty, and nothing else changes. -/
theorem init_array (hfresh : ∀ a, InArray buckets n a → m a = none) : ∃ m',
    initLists (bucketAt buckets) (allocLists m buckets n) (List.range n) = some m' ∧
      Holds (fun i : Fin n ↦ bucketAt buckets i) m' (fun _ ↦ []) ∧
      (∀ a, ¬InArray buckets n a → m' a = m a) ∧
      ∀ a, (m a).isSome → ¬InArray buckets n a := by
  have hcell : ∀ a, InArray buckets n a → (allocLists m buckets n a).isSome := by
    intro a ha
    rw [allocLists, if_pos ha, Option.isSome_some]
  obtain ⟨m', hinit, hrings, hedits⟩ := initLists_edits (m := allocLists m buckets n)
    (bucketAt buckets) (List.range n)
    (fun i hi ↦ ⟨hcell _ (inArray_iff.mpr ⟨i, List.mem_range.mp hi, Or.inl rfl⟩),
      hcell _ (inArray_iff.mpr ⟨i, List.mem_range.mp hi, Or.inr rfl⟩)⟩)
    (fun i _ ↦ bucketAt_distinct buckets i)
    (List.nodup_range.imp fun hij ↦ bucketAt_disjoint buckets hij)
  refine ⟨m', hinit, ⟨fun i ↦ hrings i (List.mem_range.mpr i.isLt), fun i ↦ ?_, fun i j hij ↦ ?_⟩,
    fun a ha ↦ ?_, fun a ha hin ↦ ?_⟩
  · simpa [nodes] using bucketAt_distinct buckets i
  · exact bucketAt_disjoint buckets fun heq ↦ hij (Fin.ext heq)
  · have hout : a ∉ headers (bucketAt buckets) (List.range n) := by
      intro hmem
      obtain ⟨i, hi, hai⟩ := List.mem_flatMap.mp hmem
      simp only [List.mem_cons, List.not_mem_nil, or_false] at hai
      exact ha (inArray_iff.mpr ⟨i, List.mem_range.mp hi, hai⟩)
    rw [hedits.same a hout, allocLists, if_neg ha]
  · rw [hfresh a hin] at ha
    exact absurd ha (by decide)

/-! ### What a table holds -/

/-- The bucket that the hash of an element selects. -/
def index (hash : ℕ → UInt64) (h : Table) (e : ℕ) : ℕ := (hash e).toNat &&& (h.bucketCnt - 1)

/-- The buckets hold a set of elements, each one in its bucket, and no two are equivalent. -/
structure Stored (hash : ℕ → UInt64) (less : ℕ → ℕ → Bool) (m : Elems) (h : Table) (S : Finset ℕ)
    (σ : Fin h.bucketCnt → List ℕ) : Prop where
  valid : Valid h.bucketCnt
  holds : Holds (fun i : Fin h.bucketCnt ↦ bucketAt h.buckets i) m σ
  mem : ∀ i e, e ∈ σ i ↔ e ∈ S ∧ index hash h e = i
  count : h.elemCnt = S.card
  apart : ∀ e ∈ S, ∀ x ∈ S, equivalent less e x = true → x = e

/-- The bucket of an element. -/
def bucketOf (hash : ℕ → UInt64) (hvalid : Valid h.bucketCnt) (e : ℕ) : Fin h.bucketCnt :=
  ⟨index hash h e, and_pred_lt hvalid _⟩

theorem findBucket_eq (hvalid : Valid h.bucketCnt) (e : ℕ) :
    findBucket hash h e = bucketAt h.buckets (bucketOf hash hvalid e) := rfl

/-- Moving all elements from old buckets to new ones. -/
theorem move_array (hash : ℕ → UInt64) {n' buckets' : ℕ} {σ : Fin n → List ℕ} (hvalid : Valid n') (h : Table)
    (hcnt : h.bucketCnt = n') (hbuckets : h.buckets = buckets')
    (hold : Holds (fun i : Fin n ↦ bucketAt buckets i) m σ)
    (hnew : Holds (fun i : Fin n' ↦ bucketAt buckets' i) m fun _ ↦ [])
    (happart : ∀ (i : Fin n) (j : Fin n'), (nodes (bucketAt buckets i) (σ i)).Disjoint
      (nodes (bucketAt buckets' j) [])) : ∃ m' σ',
      Returns (fun fuel ↦ (List.range n).foldlM (moveBucket hash h buckets fuel) m) m' ∧
        Holds (fun i : Fin n' ↦ bucketAt buckets' i) (freeLists m' buckets n) σ' ∧
        ∀ (j : Fin n') (x : ℕ), x ∈ σ' j ↔ (∃ i, x ∈ σ i) ∧ index hash h x = j := by
  subst hcnt hbuckets
  have hboth := hold.sum hnew happart
  have htarget : ∀ x, findBucket hash h x = Sum.elim (fun i : Fin n ↦ bucketAt buckets i)
      (fun i : Fin h.bucketCnt ↦ bucketAt h.buckets i) (.inr (bucketOf hash hvalid x)) :=
    fun _ ↦ rfl
  obtain ⟨m', σ', hmoves, hholds, hmem, -⟩ :=
    move_all ((List.finRange n).map Sum.inl) hboth htarget fun x ↦ by simp
  refine ⟨m', fun j ↦ σ' (.inr j), ?_, ?_, fun j x ↦ ?_⟩
  · obtain ⟨bound, hbound⟩ := hmoves
    refine ⟨bound, fun fuel hfuel ↦ ?_⟩
    have hcall := hbound fuel hfuel
    simp only [List.foldlM_map] at hcall
    simp only [← List.map_coe_finRange_eq_range, List.foldlM_map]
    exact hcall
  · have hright := hholds.comp (f := Sum.inr) Sum.inr_injective
    refine hright.frame fun j a ha ↦ if_neg fun hin ↦ ?_
    obtain ⟨i, hi, hai⟩ := inArray_iff.mp hin
    refine hholds.disjoint (.inr j) (.inl ⟨i, hi⟩) (by simp) ha ?_
    simp only [nodes, Sum.elim_inl, List.mem_cons, List.mem_append]
    exact hai.imp id fun h ↦ Or.inr (Or.inl h)
  · rw [hmem (.inr j) (by simp) x]
    simp only [Sum.elim_inr, List.not_mem_nil, false_or, List.mem_map, List.mem_finRange, true_and,
      exists_exists_eq_and, Sum.elim_inl, Sum.inr.injEq]
    exact and_congr_right fun _ ↦ Fin.ext_iff

/-- `rehash` keeps what a table holds. -/
theorem rehash_stored {S : Finset ℕ} {σ : Fin h.bucketCnt → List ℕ}
    (hs : Stored hash less m h S σ) (hfresh : Fresh mem m) : ∃ m' h' σ',
      Returns (fun fuel ↦ rehash hash mem fuel m h) (m', h') ∧ Stored hash less m' h' S σ' := by
  obtain ⟨newCnt, hcnt, hvalid⟩ := returns_newBucketCnt h.elemCnt
  by_cases hsame : newCnt = h.bucketCnt
  · refine ⟨m, h, σ, hcnt.bind ?_, hs⟩
    simp only [if_pos hsame]
    exact returns_const rfl
  cases hmem : mem (listSize * newCnt) with
  | none =>
    refine ⟨m, h, σ, hcnt.bind ?_, hs⟩
    simp only [if_neg hsame, hmem]
    exact returns_const rfl
  | some newBuckets =>
    have hfree : ∀ a, InArray newBuckets newCnt a → m a = none := fun a ha ↦
      hfresh _ _ hmem a ha.1 ha.2.1
    obtain ⟨m₁, hinit, hnew, hframe, hused⟩ := init_array hfree
    have hold : Holds (fun i : Fin h.bucketCnt ↦ bucketAt h.buckets i) m₁ σ :=
      hs.holds.frame fun i a ha ↦ hframe a (hused a ((hs.holds.ring i).allocated ha))
    have happart : ∀ (i : Fin h.bucketCnt) (j : Fin newCnt),
        (nodes (bucketAt h.buckets i) (σ i)).Disjoint (nodes (bucketAt newBuckets j) []) := by
      intro i j a ha ha'
      refine hused a ((hs.holds.ring i).allocated ha) (inArray_iff.mpr ⟨j, j.isLt, ?_⟩)
      simpa [nodes] using ha'
    obtain ⟨m₂, σ', hmoves, hholds, hmem'⟩ := move_array hash hvalid
      { h with buckets := newBuckets, bucketCnt := newCnt } rfl rfl hold hnew happart
    refine ⟨freeLists m₂ h.buckets h.bucketCnt,
      { h with buckets := newBuckets, bucketCnt := newCnt }, σ', hcnt.bind ?_, hvalid, hholds,
      fun j x ↦ (hmem' j x).trans (and_congr_left fun _ ↦ ?_), hs.count, hs.apart⟩
    · simp only [if_neg hsame, hmem, hinit, Option.bind_eq_bind, Option.bind_some]
      exact hmoves.bind (returns_const rfl)
    · constructor
      · rintro ⟨i, hi⟩
        exact ((hs.mem i x).mp hi).1
      · exact fun hx ↦ ⟨bucketOf hash hs.valid x, (hs.mem _ x).mpr ⟨hx, rfl⟩⟩

end Jungle.Hash
