import Jungle.Lib.Logged
import Jungle.MallocLab.Malloc

/-!
# The calls of `memcpy`

`mm_realloc` with a log of its calls of `memcpy`. The block that `mm_malloc` returns is apart from the old
one. The block before the old one is not: where it is shorter than the payload that is moved into
it, the ranges overlap (`realloc_copies_iff`).
-/

set_option autoImplicit false
set_option relaxedAutoImplicit false

namespace Jungle.MallocLab

open Jungle.Lib

/-- A call of `memcpy`. -/
structure Copy where
  dst : ℕ
  src : ℕ
  n : ℕ

/-- The source and the destination have no byte in common. -/
def Copy.Disjoint (c : Copy) : Prop :=
  ∀ x, c.dst ≤ x → x < c.dst + c.n → ¬(c.src ≤ x ∧ x < c.src + c.n)

/-- `memcpy (dst, src, n)` -/
def memcpyLogged (s : State) (dst src n : ℕ) : Logged Copy State :=
  ⟨[⟨dst, src, n⟩], memcpy s dst src n⟩

/-- The last part of `mm_realloc (ptr, size)`. -/
def reallocMovingLogged (fuel : ℕ) (s : State) (ptr size oldsize : ℕ) : Logged Copy (ℕ × State) := do
  let (newptr, s) ← mmMalloc fuel s size
  if newptr = 0 then return (0, s)
  else
    let copySize := (oldsize + sizeMod - DSIZE) % sizeMod
    let copySize := if size < copySize then size else copySize
    let s ← memcpyLogged s newptr ptr copySize
    let s ← mmFree s ptr
    return (newptr, s)

/-- The part of `mm_realloc (ptr, size)` that tries the previous block. -/
def reallocBackwardLogged (fuel : ℕ) (s : State) (ptr size oldsize asize : ℕ) :
    Logged Copy (ℕ × State) := do
  let prev ← prevBlkp s ptr
  if !(← getAlloc s (hdrp prev)) && (← getSize s (hdrp prev)) != 0 then
    let prevSize ← getSize s (hdrp prev)
    if asize ≤ prevSize + oldsize then
      let s ← removeFromFreeList s prev
      let s ← put s (hdrp prev) (pack (prevSize + oldsize) 1)
      let s ← put s (← ftrp s prev) (pack (prevSize + oldsize) 1)
      let s ← memcpyLogged s prev ptr ((oldsize + sizeMod - DSIZE) % sizeMod)
      return (prev, s)
    else reallocMovingLogged fuel s ptr size oldsize
  else reallocMovingLogged fuel s ptr size oldsize

/-- The part of `mm_realloc (ptr, size)` that tries the next block. -/
def reallocForwardLogged (fuel : ℕ) (s : State) (ptr size oldsize asize : ℕ) :
    Logged Copy (ℕ × State) := do
  let next ← nextBlkp s ptr
  if !(← getAlloc s (hdrp next)) && (← getSize s (hdrp next)) != 0 then
    let nextSize ← getSize s (hdrp next)
    if asize ≤ oldsize + nextSize then
      let s ← removeFromFreeList s next
      let s ← put s (hdrp ptr) (pack (oldsize + nextSize) 1)
      let s ← put s (← ftrp s ptr) (pack (oldsize + nextSize) 1)
      return (ptr, s)
    else reallocBackwardLogged fuel s ptr size oldsize asize
  else reallocBackwardLogged fuel s ptr size oldsize asize

/-- `mm_realloc (ptr, size)`, with its calls of `memcpy`. -/
def mmReallocLogged (fuel : ℕ) (s : State) (ptr size : ℕ) : Logged Copy (ℕ × State) :=
  if ptr = 0 then mmMalloc fuel s size
  else if size = 0 then (mmFree s ptr).map (0, ·)
  else do
    let oldsize ← getSize s (hdrp ptr)
    let asize := align ((size + DSIZE) % sizeMod)
    if asize ≤ oldsize then return (ptr, s)
    else reallocForwardLogged fuel s ptr size oldsize asize

variable {s s' : State} {blocks l r : List Block} {b c f q P N : Block} {fl : List ℕ}
  {fuel ptr size asize oldsize n bp x : ℕ} {m : Bytes}

/-! ### The log does not matter -/

@[simp] theorem memcpyLogged_result (s : State) (dst src n : ℕ) :
    (memcpyLogged s dst src n).result = memcpy s dst src n := rfl

/-- The end of the move into the block before. -/
theorem moveLogged_result (s : State) (p v prev ptr n : ℕ) :
    ((liftM (put s p v) : Logged Copy State) >>= fun s ↦ memcpyLogged s prev ptr n >>=
        fun s ↦ pure (prev, s)).result =
      put s p v >>= fun s ↦ memcpy s prev ptr n >>= fun s ↦ pure (prev, s) :=
  Logged.lift_bind_erases fun _ ↦ Logged.bind_erases (memcpyLogged_result ..) fun _ ↦ rfl

theorem reallocMovingLogged_result : (reallocMovingLogged fuel s ptr size oldsize).result =
    reallocMoving fuel s ptr size oldsize := by
  unfold reallocMovingLogged reallocMoving
  refine Logged.lift_bind_erases fun ⟨newptr, s⟩ ↦ ?_
  dsimp only
  by_cases hzero : newptr = 0
  · rw [if_pos hzero, if_pos hzero]
    rfl
  · rw [if_neg hzero, if_neg hzero]
    exact Logged.bind_erases (memcpyLogged_result ..) fun s ↦ Logged.lift_bind_erases fun s ↦ rfl

theorem reallocBackwardLogged_result :
    (reallocBackwardLogged fuel s ptr size oldsize asize).result =
      reallocBackward fuel s ptr size oldsize asize := by
  unfold reallocBackwardLogged reallocBackward
  refine Logged.lift_bind_erases fun prev ↦ Logged.lift_bind_erases fun alloc ↦
    Logged.lift_bind_erases fun prevSize ↦ ?_
  by_cases hfree : (!alloc && prevSize != 0) = true
  · rw [if_pos hfree, if_pos hfree]
    refine Logged.lift_bind_erases fun prevSize ↦ ?_
    by_cases hle : asize ≤ prevSize + oldsize
    · rw [if_pos hle, if_pos hle]
      exact Logged.lift_bind_erases fun s ↦ Logged.lift_bind_erases fun s ↦
        Logged.lift_bind_erases fun p ↦ moveLogged_result ..
    · rw [if_neg hle, if_neg hle, reallocMovingLogged_result]
  · rw [if_neg hfree, if_neg hfree, reallocMovingLogged_result]

theorem reallocForwardLogged_result :
    (reallocForwardLogged fuel s ptr size oldsize asize).result =
      reallocForward fuel s ptr size oldsize asize := by
  unfold reallocForwardLogged reallocForward
  refine Logged.lift_bind_erases fun next ↦ Logged.lift_bind_erases fun alloc ↦
    Logged.lift_bind_erases fun nextSize ↦ ?_
  by_cases hfree : (!alloc && nextSize != 0) = true
  · rw [if_pos hfree, if_pos hfree]
    refine Logged.lift_bind_erases fun nextSize ↦ ?_
    by_cases hle : asize ≤ oldsize + nextSize
    · rw [if_pos hle, if_pos hle]
      exact Logged.lift_bind_erases fun s ↦ Logged.lift_bind_erases fun s ↦
        Logged.lift_bind_erases fun p ↦ Logged.lift_bind_erases fun s ↦ rfl
    · rw [if_neg hle, if_neg hle, reallocBackwardLogged_result]
  · rw [if_neg hfree, if_neg hfree, reallocBackwardLogged_result]

/-- `mm_realloc` returns what it returns with the log. -/
theorem mmReallocLogged_result :
    (mmReallocLogged fuel s ptr size).result = mmRealloc fuel s ptr size := by
  unfold mmReallocLogged mmRealloc
  split_ifs with hnull hzero
  · rfl
  · rfl
  · refine Logged.lift_bind_erases fun oldsize ↦ ?_
    dsimp only
    split_ifs with hle
    · rfl
    · exact reallocForwardLogged_result

/-! ### Requests that are too large -/

/-- A block with a size that is larger than the memory cannot be tagged. -/
theorem put_footer_none {n v v' p : ℕ} (hv : v / 8 * 8 = n) (hlt : v < 2 ^ 32) (hlarge : MAX_HEAP + 8 < n)
    (hput : put s (hdrp bp) v = some s') (hftrp : ftrp s' bp = some p) : put s' p v' = none := by
  have harena : InArena s (hdrp bp) WSIZE := by
    by_contra hout
    exact absurd (hput.symm.trans (if_neg hout)) (by simp)
  obtain rfl := Option.some.inj (hput.symm.trans (put_eq harena v))
  rw [ftrp, getSize, get_put_self harena hlt, Option.map_some, Option.map_some, hv] at hftrp
  obtain rfl := Option.some.inj hftrp
  refine if_neg fun hfooter ↦ ?_
  unfold InArena hdrp WSIZE DSIZE at *
  dsimp only at hfooter
  omega

/-- `place` faults where the block does not fit into the memory. -/
theorem place_huge (haligned : asize % 8 = 0) (hlarge : MAX_HEAP + 8 < asize) (hlt : asize < 2 ^ 32) :
    place s bp asize = none := by
  rw [← Option.not_isSome_iff_eq_none, Option.isSome_iff_exists]
  rintro ⟨s', hplace⟩
  obtain ⟨csize, hcsize, hplace⟩ := Option.bind_eq_some_iff.mp hplace
  obtain ⟨s₁, -, hplace⟩ := Option.bind_eq_some_iff.mp hplace
  obtain ⟨word, hword, rfl⟩ := Option.map_eq_some_iff.mp hcsize
  have hwordlt : word < 2 ^ 32 := by
    rw [get, load] at hword
    split_ifs at hword
    obtain rfl := Option.some.inj hword
    exact Bytes.load_lt _ _ _
  dsimp only at hplace
  split_ifs at hplace with hsplit
  · obtain ⟨s₂, hput, hplace⟩ := Option.bind_eq_some_iff.mp hplace
    obtain ⟨p, hftrp, hplace⟩ := Option.bind_eq_some_iff.mp hplace
    obtain ⟨s₃, hfooter, -⟩ := Option.bind_eq_some_iff.mp hplace
    have htag := tag_alloc bp haligned
    change pack asize 1 = asize + 1 at htag
    rw [put_footer_none (by omega) (by omega) hlarge hput hftrp] at hfooter
    exact absurd hfooter (by simp)
  · obtain ⟨s₂, hput, hplace⟩ := Option.bind_eq_some_iff.mp hplace
    obtain ⟨p, hftrp, hfooter⟩ := Option.bind_eq_some_iff.mp hplace
    have hle : asize ≤ word / 8 * 8 := by
      unfold DSIZE sizeMod at hsplit
      omega
    have htag := tag_alloc bp (show word / 8 * 8 % 8 = 0 by omega)
    change pack (word / 8 * 8) 1 = word / 8 * 8 + 1 at htag
    rw [put_footer_none (by omega) (by omega) (by omega : MAX_HEAP + 8 < word / 8 * 8) hput
      hftrp] at hfooter
    exact absurd hfooter (by simp)

/-- `mm_malloc` returns no block that does not fit into the memory. -/
theorem mmMalloc_huge (h : Heap s blocks fl) (hlarge : MAX_HEAP < size) (hint : size < 2 ^ 31) :
    ∃ bound, ∀ fuel, bound < fuel → ∀ newptr s', mmMalloc fuel s size = some (newptr, s') →
      newptr = 0 := by
  have hasize := adjustedSize_spec size (by omega) (by omega)
  have hmax : MAX_HEAP = 20971520 := rfl
  rcases h.bestFit (adjustedSize size) with ⟨hfit, -⟩ | ⟨f, hf, -, hle, -⟩
  · obtain ⟨bound, hbound⟩ := mmMalloc_grow size (by omega) hfit
    refine ⟨bound, fun fuel hfuel newptr s' hcall ↦ ?_⟩
    rw [hbound fuel hfuel] at hcall
    obtain ⟨⟨bp, s₁⟩, -, hcall⟩ := Option.bind_eq_some_iff.mp hcall
    dsimp only at hcall
    split_ifs at hcall
    · exact (Prod.mk.inj (Option.some.inj hcall)).1.symm
    · rw [place_huge hasize.1 (by omega) (by omega)] at hcall
      exact absurd hcall (by simp)
  · have hbounds := h.bounds hf
    have htop := h.top
    omega

/-! ### The calls of `memcpy` -/

/-- The number of bytes of a payload. -/
theorem payload_eq (hsize : 16 ≤ n) (hlt : n ≤ MAX_HEAP) : (n + sizeMod - DSIZE) % sizeMod = n - 8 := by
  unfold sizeMod DSIZE
  unfold MAX_HEAP at hlt
  omega

/-- The blocks before and behind the allocated one stay. -/
theorem Allocates.mem {a : Block} {blocks' : List Block} (h : Allocates s blocks asize a s' blocks')
    (hc : c ∈ blocks) (halloc : c.alloc = true) : c ∈ blocks' := by
  obtain ⟨l, mid, r, rest, rfl, rfl, hmid, -⟩ := h.replaced
  rcases List.mem_append.mp hc with hc | hc
  · rcases List.mem_append.mp hc with hc | hc
    · simp [hc]
    · exact absurd halloc (by simp [hmid c hc])
  · simp [hc]

/-- The allocated block is a new one. -/
theorem Allocates.apart {a : Block} {blocks' : List Block} {fl' : List ℕ}
    (h : Allocates s blocks asize a s' blocks') (hheap : Heap s' blocks' fl') (hc : c ∈ blocks)
    (halloc : c.alloc = true) : a.bp + a.size ≤ c.bp ∨ c.bp + c.size ≤ a.bp := by
  have hmem := h.mem hc halloc
  obtain ⟨l, mid, r, rest, rfl, rfl, hmid, -⟩ := h.replaced
  refine (hheap.eq_or_apart (by simp) hmem).resolve_left fun heq ↦ ?_
  have hother : c ∈ l ++ (rest ++ r) := by
    rcases List.mem_append.mp hc with hc | hc
    · rcases List.mem_append.mp hc with hc | hc
      · simp [hc]
      · exact absurd halloc (by simp [hmid c hc])
    · simp [hc]
  exact hheap.bp_ne (List.Sublist.refl _) hother (congrArg Block.bp heq).symm

/-- A copy to a new block is to other bytes. -/
theorem moving_disjoint (h : Heap s blocks fl) (hb : b ∈ blocks) (halloc : b.alloc = true)
    (hpos : 0 < size) (hint : size < 2 ^ 31) : ∃ bound, ∀ fuel, bound < fuel →
      (reallocMovingLogged fuel s b.bp size b.size).All Copy.Disjoint := by
  have hsized := (h.sized b hb).2
  have hbounds := h.bounds hb
  have htop := h.top
  have hmax : MAX_HEAP = 20971520 := rfl
  have hrefused : ∀ fuel, (∀ newptr s', mmMalloc fuel s size = some (newptr, s') → newptr = 0) →
      (reallocMovingLogged fuel s b.bp size b.size).All Copy.Disjoint := by
    intro fuel hnone
    refine Logged.all_lift_bind fun ⟨newptr, s'⟩ hcall ↦ ?_
    dsimp only
    rw [if_pos (hnone newptr s' hcall)]
    exact Logged.all_pure _ _
  by_cases hsize : size ≤ MAX_HEAP
  · rcases mmMalloc_spec h hpos hsize with ⟨⟨bound, hbound⟩, -⟩ |
      ⟨-, a, s₁, blocks', fl', ⟨bound, hbound⟩, hheap, hallocates⟩
    · refine ⟨bound, fun fuel hfuel ↦ hrefused fuel fun newptr s' hcall ↦ ?_⟩
      exact (Prod.mk.inj (Option.some.inj (hcall.symm.trans (hbound fuel hfuel)))).1
    · refine ⟨bound, fun fuel hfuel ↦ Logged.all_lift_bind fun ⟨newptr, s₂⟩ hcall ↦ ?_⟩
      obtain ⟨rfl, rfl⟩ := Prod.mk.inj (Option.some.inj (hcall.symm.trans (hbound fuel hfuel)))
      dsimp only
      rw [payload_eq hsized (by omega)]
      by_cases hzero : a.bp = 0
      · rw [if_pos hzero]
        exact Logged.all_pure _ _
      rw [if_neg hzero]
      generalize hn : (if size < b.size - 8 then size else b.size - 8) = n
      have hle : n ≤ size ∧ n ≤ b.size - 8 := by
        rw [← hn]
        split_ifs <;> omega
      refine Logged.all_bind (fun e he ↦ ?_) fun _ _ ↦
        Logged.all_lift_bind fun _ _ ↦ Logged.all_pure _ _
      obtain rfl := List.mem_singleton.mp he
      have hasize := (adjustedSize_spec size hpos (by omega)).2.2.1
      have henough := hallocates.enough
      have hapart := hallocates.apart hheap hb halloc
      intro x hx hlt
      dsimp only at hx hlt ⊢
      omega
  · obtain ⟨bound, hbound⟩ := mmMalloc_huge h (Nat.not_le.mp hsize) hint
    exact ⟨bound, fun fuel hfuel ↦ hrefused fuel (hbound fuel hfuel)⟩

/-- `mm_realloc` moves the payload of the block into the free block before it. -/
def TakesPrevious (s : State) (l : List Block) (b : Block) (r : List Block) (size : ℕ) : Prop :=
  b.size < align (size + DSIZE) ∧
    ((nextOf s r).alloc = true ∨ b.size + (nextOf s r).size < align (size + DSIZE)) ∧
    (prevOf s l).alloc = false ∧ align (size + DSIZE) ≤ (prevOf s l).size + b.size

theorem all_memcpy_iff (s : State) (dst src n : ℕ) :
    (memcpyLogged s dst src n >>= fun s ↦ pure (dst, s)).All Copy.Disjoint ↔
      Copy.Disjoint ⟨dst, src, n⟩ := by
  constructor
  · exact fun hall ↦ hall.of_bind _ List.mem_cons_self
  · intro hdisjoint
    refine Logged.all_bind (fun e he ↦ ?_) fun _ _ ↦ Logged.all_pure _ _
    rwa [List.mem_singleton.mp he]

/-- Moving the payload into the block before it. -/
theorem backward_disjoint_iff (h : Heap s (l ++ P :: b :: r) fl) (hP : P.alloc = false)
    (henough : asize ≤ P.size + b.size) (hprev : prevBlkp s b.bp = some P.bp) :
    (reallocBackwardLogged fuel s b.bp size b.size asize).All Copy.Disjoint ↔
      b.size ≤ P.size + 8 := by
  have hmemP : P ∈ l ++ P :: b :: r := by simp
  have hsizedP := h.sized P hmemP
  have hsized := h.sized b (by simp)
  have hbounds := h.bounds (b := b) (by simp)
  have hboundsP := (h.bounds hmemP).1
  have htop := h.top
  have hmax : MAX_HEAP = 20971520 := rfl
  obtain ⟨x, -, hxP, hrest⟩ := Tiles.append_iff.mp h.tiles
  have hbbp : b.bp = P.bp + P.size := hrest.1.trans (by rw [hxP])
  obtain ⟨m, p, hremove, -⟩ := h.take (List.Sublist.refl _) h.toListed hP
  have halloc : getAlloc s (hdrp P.bp) = some P.alloc :=
    getAlloc_of_tag hsizedP.1 (h.tagged P hmemP).header
  have hsize := h.getSize_hdrp hmemP
  have hw : Writable { s with mem := m, freeListp := p } P.bp (P.size + b.size) := by
    refine ⟨?_, ?_, ?_⟩
    · unfold WSIZE
      dsimp only
      omega
    · unfold DSIZE
      omega
    · dsimp only
      omega
  have hsum : (P.size + b.size) % 8 = 0 := by omega
  have htag := tag_alloc P.bp hsum
  change pack (P.size + b.size) 1 = P.size + b.size + 1 at htag
  have hheader := put_eq hw.header (pack (P.size + b.size) 1)
  have hftrp := ftrp_put hw (v := pack (P.size + b.size) 1) (by omega) (by omega)
  have hfooter := put_eq (s := { s with
    mem := m.store (hdrp P.bp) WSIZE (pack (P.size + b.size) 1), freeListp := p })
    hw.footer (pack (P.size + b.size) 1)
  unfold reallocBackwardLogged
  rw [Logged.all_lift_bind_iff hprev, Logged.all_lift_bind_iff halloc,
    Logged.all_lift_bind_iff hsize, if_pos (by simp [hP]; omega), Logged.all_lift_bind_iff hsize,
    if_pos henough, Logged.all_lift_bind_iff hremove, Logged.all_lift_bind_iff hheader,
    Logged.all_lift_bind_iff hftrp, Logged.all_lift_bind_iff hfooter, payload_eq hsized.2 (by omega)]
  refine (all_memcpy_iff ..).trans ⟨fun hdisjoint ↦ ?_, fun hle x hx hlt ↦ ?_⟩
  · by_contra hless
    refine hdisjoint b.bp ?_ ?_ ⟨Nat.le_refl _, ?_⟩ <;> dsimp only <;> omega
  · dsimp only at hx hlt ⊢
    omega

/-- The part of `mm_realloc` that tries the block before. -/
theorem backward_iff (h : Heap s (l ++ b :: r) fl) (hb : b.alloc = true) (hpos : 0 < size)
    (hint : size < 2 ^ 31) (asize : ℕ) : ∃ bound, ∀ fuel, bound < fuel →
      ((reallocBackwardLogged fuel s b.bp size b.size asize).All Copy.Disjoint ↔
        ((prevOf s l).alloc = false → asize ≤ (prevOf s l).size + b.size →
          b.size ≤ (prevOf s l).size + 8)) := by
  obtain ⟨bound, hmoving⟩ := moving_disjoint h (b := b) (by simp) hb hpos hint
  refine ⟨bound, fun fuel hfuel ↦ ?_⟩
  obtain ⟨htag, hsize, -⟩ := h.prev
  by_cases htakes : (prevOf s l).alloc = false ∧ asize ≤ (prevOf s l).size + b.size
  · obtain ⟨l, P, rfl, hP⟩ := exists_of_prevOf htakes.1
    have hprevOf : prevOf s (l ++ [P]) = P := List.getLastD_concat
    have hprev := h.prevBlkp
    rw [hprevOf] at htakes hprev ⊢
    rw [List.append_assoc, List.singleton_append] at h
    rw [backward_disjoint_iff h hP htakes.2 hprev]
    exact ⟨fun hle _ _ ↦ hle, fun hle ↦ hle htakes.1 htakes.2⟩
  · refine iff_of_true ?_ fun hfree hle ↦ absurd ⟨hfree, hle⟩ htakes
    unfold reallocBackwardLogged
    rw [Logged.all_lift_bind_iff h.prevBlkp,
      Logged.all_lift_bind_iff (getAlloc_of_tag hsize htag.header),
      Logged.all_lift_bind_iff (getSize_of_tag hsize htag.header)]
    split_ifs with hfree
    · rw [Logged.all_lift_bind_iff (getSize_of_tag hsize htag.header)]
      have halloc : (prevOf s l).alloc = false := by simpa using (Bool.and_eq_true_iff.mp hfree).1
      rw [if_neg fun hle ↦ htakes ⟨halloc, hle⟩]
      exact hmoving fuel hfuel
    · exact hmoving fuel hfuel

/-- A block that fits neither in place nor with the block behind it. -/
theorem realloc_backward_iff (h : Heap s (l ++ b :: r) fl) (hpos : 0 < size) (hint : size < 2 ^ 31)
    (hless : b.size < align (size + DSIZE))
    (hnext : (nextOf s r).alloc = true ∨ b.size + (nextOf s r).size < align (size + DSIZE)) :
    (mmReallocLogged fuel s b.bp size).All Copy.Disjoint ↔
      (reallocBackwardLogged fuel s b.bp size b.size (align (size + DSIZE))).All Copy.Disjoint := by
  have hmem : b ∈ l ++ b :: r := by simp
  have hbp : b.bp ≠ 0 := by
    have hbounds := (h.bounds hmem).1
    omega
  have hwrap : (size + DSIZE) % sizeMod = size + DSIZE := by
    unfold DSIZE sizeMod
    omega
  obtain ⟨hget, hsize, -⟩ := h.next
  unfold mmReallocLogged
  rw [if_neg hbp, if_neg hpos.ne', Logged.all_lift_bind_iff (h.getSize_hdrp hmem), hwrap]
  dsimp only
  rw [if_neg (Nat.not_le.mpr hless)]
  unfold reallocForwardLogged
  rw [Logged.all_lift_bind_iff h.nextBlkp, Logged.all_lift_bind_iff (getAlloc_of_tag hsize hget),
    Logged.all_lift_bind_iff (getSize_of_tag hsize hget)]
  split_ifs with hfree
  · rw [Logged.all_lift_bind_iff (getSize_of_tag hsize hget), if_neg]
    rcases hnext with htrue | hshort
    · simp [htrue] at hfree
    · exact Nat.not_le.mpr hshort
  · rfl

/-- A block that fits in place or with the block behind it is not copied. -/
theorem realloc_stays (h : Heap s (l ++ b :: r) fl) (hpos : 0 < size) (hint : size < 2 ^ 31)
    (hfits : align (size + DSIZE) ≤ b.size ∨
      (nextOf s r).alloc = false ∧ align (size + DSIZE) ≤ b.size + (nextOf s r).size) :
    (mmReallocLogged fuel s b.bp size).All Copy.Disjoint := by
  have hmem : b ∈ l ++ b :: r := by simp
  have hbp : b.bp ≠ 0 := by
    have hbounds := (h.bounds hmem).1
    omega
  have hwrap : (size + DSIZE) % sizeMod = size + DSIZE := by
    unfold DSIZE sizeMod
    omega
  obtain ⟨hget, hsize, -⟩ := h.next
  unfold mmReallocLogged
  rw [if_neg hbp, if_neg hpos.ne', Logged.all_lift_bind_iff (h.getSize_hdrp hmem), hwrap]
  dsimp only
  split_ifs with hle
  · exact Logged.all_pure _ _
  obtain ⟨halloc, henough⟩ := hfits.resolve_left hle
  have hne : (nextOf s r).size ≠ 0 := by
    obtain ⟨N, r', rfl, hN⟩ := exists_of_nextOf halloc
    have hroom := h.room N (by simp) hN
    change N.size ≠ 0
    omega
  unfold reallocForwardLogged
  rw [Logged.all_lift_bind_iff h.nextBlkp, Logged.all_lift_bind_iff (getAlloc_of_tag hsize hget),
    Logged.all_lift_bind_iff (getSize_of_tag hsize hget), if_pos (by simp [halloc, hne]),
    Logged.all_lift_bind_iff (getSize_of_tag hsize hget), if_pos henough]
  exact Logged.all_lift_bind fun _ _ ↦ Logged.all_lift_bind fun _ _ ↦
    Logged.all_lift_bind fun _ _ ↦ Logged.all_lift_bind fun _ _ ↦ Logged.all_pure _ _

/-- `mm_realloc` calls `memcpy` with disjoint ranges, unless it moves the payload into a free block before
it that is shorter than the payload. -/
theorem realloc_copies_iff (h : Heap s (l ++ b :: r) fl) (hb : b.alloc = true) (hpos : 0 < size)
    (hint : size < 2 ^ 31) : ∃ bound, ∀ fuel, bound < fuel →
      ((mmReallocLogged fuel s b.bp size).All Copy.Disjoint ↔
        (TakesPrevious s l b r size → b.size ≤ (prevOf s l).size + 8)) := by
  obtain ⟨bound, hbackward⟩ := backward_iff h hb hpos hint (align (size + DSIZE))
  refine ⟨bound, fun fuel hfuel ↦ ?_⟩
  by_cases hmoves : b.size < align (size + DSIZE) ∧
      ((nextOf s r).alloc = true ∨ b.size + (nextOf s r).size < align (size + DSIZE))
  · rw [realloc_backward_iff h hpos hint hmoves.1 hmoves.2, hbackward fuel hfuel]
    exact ⟨fun hle htakes ↦ hle htakes.2.2.1 htakes.2.2.2,
      fun hle hfree henough ↦ hle ⟨hmoves.1, hmoves.2, hfree, henough⟩⟩
  · refine iff_of_true (realloc_stays h hpos hint ?_) fun htakes ↦
      absurd ⟨htakes.1, htakes.2.1⟩ hmoves
    by_contra hfits
    push Not at hfits
    refine hmoves ⟨hfits.1, ?_⟩
    cases halloc : (nextOf s r).alloc with
    | true => exact Or.inl rfl
    | false => exact Or.inr (hfits.2 halloc)

/-- In the heap with the hole the block of 40 bytes moves 24 bytes down. -/
theorem realloc_copies_hole : ∃ bound, ∀ fuel, bound < fuel →
    ((mmReallocLogged fuel hole 48 48).All Copy.Disjoint ↔
      (TakesPrevious hole [⟨24, 24, false⟩] ⟨48, 40, true⟩ [] 48 → 40 ≤ 24 + 8)) :=
  realloc_copies_iff (l := [⟨24, 24, false⟩]) (b := ⟨48, 40, true⟩) (r := [])
    wellFormed_hole.toHeap rfl (by decide) (by decide)

/-- `mm_realloc` may call `memcpy` with ranges that overlap. -/
theorem not_realloc_copies_disjoint :
    ¬∀ (s : State) (blocks : List Block) (fl : List ℕ) (b : Block) (size : ℕ),
      WellFormed s blocks fl → b ∈ blocks → b.alloc = true → 0 < size → size < 2 ^ 31 →
      ∀ fuel, (mmReallocLogged fuel s b.bp size).All Copy.Disjoint := by
  intro hclaim
  have h := wellFormed_hole.toHeap
  obtain ⟨bound, hbackward⟩ := backward_iff h rfl (show 0 < 48 by decide) (by decide)
    (align (48 + DSIZE))
  have hall := hclaim hole _ _ ⟨48, 40, true⟩ 48 wellFormed_hole (by simp) rfl (by decide)
    (by decide) (bound + 1)
  rw [realloc_backward_iff h (by decide) (by decide) (by decide) (Or.inl rfl),
    hbackward (bound + 1) (Nat.lt_succ_self bound)] at hall
  exact absurd (hall rfl (by decide)) (by decide)

end Jungle.MallocLab
