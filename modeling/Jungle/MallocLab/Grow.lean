import Jungle.MallocLab.Free

/-!
# Growing the heap

`extend_heap` makes a free block of the memory that `mem_sbrk` grants, with its header in place of the
epilogue, and merges it with the last block if that is free. What it asks for is an `int`, so that a
size that does not fit is another number, or a negative one, which `mem_sbrk` refuses.
-/

set_option autoImplicit false
set_option relaxedAutoImplicit false

namespace Jungle.MallocLab

open Jungle.Lib

/-- `mem_sbrk` refuses so many bytes. -/
def Refused (s : State) (n : ℕ) : Prop :=
  int32 n < 0 ∨ (s.startBrk + MAX_HEAP : ℤ) < s.brk + int32 n

variable {s : State} {blocks : List Block} {fl : List ℕ} {n x : ℕ}

/-! ### The break -/

theorem memSbrk_refused (h : Refused s n) : memSbrk s (int32 n) = (none, s) := if_pos h

theorem memSbrk_granted (h : ¬Refused s n) :
    memSbrk s (int32 n) = (some s.brk, { s with brk := s.brk + (int32 n).toNat }) :=
  if_neg h

theorem extendHeap_refused {words : ℕ} (h : Refused s (extendSize words)) :
    extendHeap s words = some (0, s) := by
  rw [extendHeap, memSbrk_refused h]
  rfl

theorem int32_of_lt (h : n < 2 ^ 31) : int32 n = n := by
  refine int32_of_mem ?_ ?_
  · unfold intMin
    omega
  · unfold intMax
    omega

theorem not_refused_iff (h : n < 2 ^ 31) : ¬Refused s n ↔ s.brk + n ≤ s.startBrk + MAX_HEAP := by
  rw [Refused, int32_of_lt h]
  omega

/-! ### The new block -/

/-- The memory with a free block behind the heap, and a new epilogue. -/
def grownMem (s : State) (n : ℕ) : Bytes :=
  (tagAt s.mem s.brk n (pack n 0)).store (hdrp (s.brk + n)) WSIZE (pack 0 1)

/-- The state with a free block behind the heap. -/
def State.grown (s : State) (n : ℕ) : State := { s with mem := grownMem s n, brk := s.brk + n }

section Grown

variable (h : Tiled s blocks) (hsized : n % 8 = 0 ∧ 24 ≤ n)
  (hfits : s.brk + n ≤ s.startBrk + MAX_HEAP)
include h hsized hfits

theorem writable_grown : Writable { s with brk := s.brk + n } s.brk n := by
  have hle := h.tiles.le
  refine ⟨?_, ?_, hfits⟩
  · unfold WSIZE
    dsimp only
    omega
  · unfold DSIZE
    omega

omit h hfits in
/-- Only the old epilogue and what lies behind it change. -/
theorem grownMem_frame (hbrk : WSIZE ≤ s.brk) (hx : x + WSIZE < s.brk) :
    grownMem s n x = s.mem x := by
  unfold grownMem
  rw [Bytes.store_of_not_mem]
  · refine tagAt_frame (q := ⟨s.brk, n, false⟩) hbrk ?_ ?_
    · unfold DSIZE
      dsimp only
      omega
    · unfold OnTag WSIZE DSIZE at *
      dsimp only
      omega
  · unfold hdrp WSIZE at *
    omega

/-- The new block and the new epilogue complete the tiling. -/
theorem Tiled.grown : Tiled (s.grown n) (blocks ++ [⟨s.brk, n, false⟩]) := by
  have hle := h.tiles.le
  have hbrk : WSIZE ≤ s.brk := by
    unfold WSIZE
    omega
  have hwritable := writable_grown h hsized hfits
  have harena : InArena { s with brk := s.brk + n } (hdrp (s.brk + n)) WSIZE := by
    unfold InArena hdrp WSIZE
    dsimp only
    omega
  refine ⟨⟨h.placed.pos, h.placed.aligned, h.placed.bound⟩, hfits,
    h.tiles.append ⟨rfl, rfl⟩, ?_, fun b hb ↦ ?_, ?_, fun b hb ↦ ?_⟩
  · have hbp : s.prologue.bp = s.startBrk + 8 := rfl
    have hsize : s.prologue.size = 8 := rfl
    refine h.prologue.congr ?_ rfl fun x hx ↦ grownMem_frame hsized hbrk ?_
    · unfold DSIZE
      omega
    · unfold OnTag WSIZE DSIZE at *
      omega
  · rcases List.mem_append.mp hb with hb | hb
    · have hbounds := h.bounds hb
      have hsize := (h.sized b hb).2
      refine (h.tagged b hb).congr ?_ rfl fun x hx ↦ grownMem_frame hsized hbrk ?_
      · unfold DSIZE
        omega
      · unfold OnTag WSIZE DSIZE at *
        omega
    · rw [List.mem_singleton.mp hb]
      have htag := tagged_tagAt (q := ⟨s.brk, n, false⟩) hwritable hsized.1
      refine htag.congr ?_ rfl fun x hx ↦ Bytes.store_of_not_mem ?_
      · unfold DSIZE
        dsimp only
        omega
      · unfold OnTag hdrp WSIZE DSIZE at *
        dsimp only at hx
        omega
  · exact get_put_self (s := { s with
      mem := tagAt s.mem s.brk n (pack n 0), brk := s.brk + n }) harena (by decide)
  · rcases List.mem_append.mp hb with hb | hb
    · exact h.sized b hb
    · rw [List.mem_singleton.mp hb]
      exact ⟨hsized.1, show 16 ≤ n by omega⟩

end Grown

/-- The free list stays. -/
theorem Heap.listed_grown (h : Heap s blocks fl) (hsized : n % 8 = 0 ∧ 24 ≤ n) :
    Listed (s.grown n) blocks fl := by
  have hle := h.tiles.le
  refine ⟨h.linked.frame (fun x hx ↦ ?_) _, h.mem_iff, h.room⟩
  have hbounds := h.linksOf_bounds h.roomy hx
  refine grownMem_frame hsized ?_ ?_
  · unfold WSIZE
    omega
  · unfold WSIZE DSIZE at *
    omega

/-- `extend_heap` with the number of bytes that `mem_sbrk` grants. -/
theorem extendHeapWith_eq (h : Tiled s blocks) (hsized : n % 8 = 0 ∧ 24 ≤ n) (hlt : n < 2 ^ 31)
    (hfits : s.brk + n ≤ s.startBrk + MAX_HEAP) :
    extendHeapWith n (memSbrk s (int32 n)) = coalesce (s.grown n) s.brk := by
  have hwritable := writable_grown h hsized hfits
  have htag := tagged_tagAt (q := ⟨s.brk, n, false⟩) hwritable hsized.1
  have hmax : MAX_HEAP < 2 ^ 31 := by decide
  have hsbrk : memSbrk s (int32 n) = (some s.brk, { s with brk := s.brk + n }) := by
    rw [memSbrk_granted ((not_refused_iff hlt).mpr hfits), int32_of_lt hlt, Int.toNat_natCast]
  have harena : InArena s (hdrp (s.brk + n)) WSIZE := by
    have hle := h.tiles.le
    unfold InArena hdrp WSIZE
    omega
  rw [hsbrk]
  refine (putTags_bind (v := pack n 0) hwritable (tag_size (b := ⟨s.brk, n, false⟩) hsized.1) ?_
    _).trans ?_
  · rw [pack, Nat.or_zero]
    omega
  · have hnext : nextBlkp { s with mem := tagAt s.mem s.brk n (pack n 0), brk := s.brk + n } s.brk =
        some (s.brk + n) := nextBlkp_of_tag (b := ⟨s.brk, n, false⟩) hsized.1 htag.header
    rw [hnext]
    exact congrArg (fun o ↦ Option.bind o fun s' ↦ coalesce s' s.brk) (put_eq (s := { s with
      mem := tagAt s.mem s.brk n (pack n 0), brk := s.brk + n }) harena _)

/-- `extend_heap` adds a free block behind the heap, merged with the last one if that is free. -/
theorem extendHeapWith_spec (h : Heap s blocks fl) (hsized : n % 8 = 0 ∧ 24 ≤ n) (hlt : n < 2 ^ 31)
    (hfits : s.brk + n ≤ s.startBrk + MAX_HEAP) :
    ∃ l p q m, blocks = l ++ p ∧ Merged l p ⟨s.brk, n, false⟩ [] [] q ∧
      extendHeapWith n (memSbrk s (int32 n)) =
        some (q.bp, { s with mem := m, brk := s.brk + n, freeListp := q.bp }) ∧
      Heap { s with mem := m, brk := s.brk + n, freeListp := q.bp } (l ++ [q])
        (q.bp :: fl.diff (p.map Block.bp)) ∧
      ∀ z, ¬InBlock q z → ¬LinksOf fl z → z + WSIZE < s.brk → m z = s.mem z := by
  have hle := h.tiles.le
  have hlisted : Listed (s.grown n) (blocks ++ []) fl := by
    rw [List.append_nil]
    exact h.listed_grown hsized
  obtain ⟨l, p, front, r, q, rfl, hnil, hmerged, m, heq, hheap, hframe⟩ :=
    coalesce_spec (h.grown hsized hfits) hlisted rfl h.settled List.isChain_nil (Or.inl hsized.2)
  obtain ⟨rfl, rfl⟩ := List.append_eq_nil_iff.mp hnil.symm
  refine ⟨l, p, q, m, rfl, hmerged, (extendHeapWith_eq h.toTiled hsized hlt hfits).trans heq,
    hheap, fun z hz hlinks hlt ↦ ?_⟩
  rw [hframe z hz hlinks]
  refine grownMem_frame hsized ?_ hlt
  unfold WSIZE
  omega

end Jungle.MallocLab
