import Jungle.Lib.Ensures
import Jungle.MallocLab.Realloc

/-!
# Requests of every size

`mm_malloc` returns `NULL` exactly when no free block fits and `mem_sbrk` refuses the memory
(`mmMalloc_null_iff`), the heap being as before. What it returns otherwise is a block of a well-formed
heap, except that a payload of at most 8 bytes may get a block of 16 bytes, and that `mem_sbrk` may grant
a request which does not fit into an `int` (`mmMalloc_keeps_iff`).
-/

set_option autoImplicit false
set_option relaxedAutoImplicit false

namespace Jungle.MallocLab

open Jungle.Lib

variable {s s' s'' : State} {blocks : List Block} {b : Block} {fl : List ℕ}
  {size asize n p v x bp bp' : ℕ}

/-! ### `coalesce` returns a block -/

/-- The memory of `mem_init` is not at `NULL`. -/
def Based (s : State) : Prop := 0 < s.startBrk

theorem store_based (hs : Based s) : Ensures (store s p n v) Based := by
  intro s' h
  unfold store at h
  split_ifs at h
  exact Option.some.inj h ▸ hs

theorem removeFromFreeList_based (hs : Based s) : Ensures (removeFromFreeList s bp) Based := by
  have hsecond : ∀ s, Based s → Ensures (nextFree s bp >>= fun next ↦
      if next ≠ 0 then nextFree s bp >>= fun next ↦ prevFree s bp >>= fun prev ↦ setPrevFree s next prev
      else pure s) Based := by
    refine fun s hs ↦ Ensures.skip fun next ↦ ?_
    split_ifs
    · exact Ensures.skip fun _ ↦ Ensures.skip fun _ ↦ store_based hs
    · exact Ensures.pure hs
  unfold removeFromFreeList
  refine Ensures.skip fun prev ↦ ?_
  dsimp only
  split_ifs
  · refine Ensures.skip fun next ↦ ?_
    have hfirst : Based { s with freeListp := next } := hs
    exact (Ensures.pure hfirst).bind fun s hs ↦ hsecond s hs
  · exact Ensures.skip fun _ ↦ Ensures.skip fun _ ↦ (store_based hs).bind fun s hs ↦ hsecond s hs

/-- A listed block is one of those of `mem_init`. -/
theorem addToFreeList_ne_zero (hs : Based s) : Ensures (addToFreeList s bp) fun _ ↦ bp ≠ 0 := by
  intro s' h
  obtain ⟨s₁, hstore, -⟩ := Option.bind_eq_some_iff.mp h
  unfold setNextFree store at hstore
  split_ifs at hstore with harena
  have hle := harena.1
  unfold Based at hs
  omega

/-- The block that is listed is returned. -/
theorem listed_ne_zero (hs : Based s) :
    Ensures (addToFreeList s bp >>= fun s ↦ pure (bp, s)) fun r ↦ r.1 ≠ 0 :=
  (addToFreeList_ne_zero hs).bind fun _ hbp ↦ Ensures.pure hbp

theorem coalesce_ne_zero (hs : Based s) : Ensures (coalesce s bp) fun r ↦ r.1 ≠ 0 := by
  unfold coalesce
  refine Ensures.skip fun _ ↦ Ensures.skip fun _ ↦ Ensures.skip fun _ ↦ Ensures.skip fun _ ↦
    Ensures.skip fun _ ↦ Ensures.skip fun _ ↦ ?_
  split_ifs
  · exact listed_ne_zero hs
  · exact Ensures.skip fun _ ↦ (removeFromFreeList_based hs).bind fun s hs ↦ Ensures.skip fun _ ↦
      Ensures.skip fun _ ↦ (store_based hs).bind fun s hs ↦ Ensures.skip fun _ ↦
      (store_based hs).bind fun s hs ↦ listed_ne_zero hs
  · exact Ensures.skip fun _ ↦ (removeFromFreeList_based hs).bind fun s hs ↦ Ensures.skip fun _ ↦
      Ensures.skip fun _ ↦ Ensures.skip fun _ ↦ (store_based hs).bind fun s hs ↦ Ensures.skip fun _ ↦
      Ensures.skip fun _ ↦ (store_based hs).bind fun s hs ↦ Ensures.skip fun _ ↦ listed_ne_zero hs
  · exact Ensures.skip fun _ ↦ (removeFromFreeList_based hs).bind fun s hs ↦ Ensures.skip fun _ ↦
      (removeFromFreeList_based hs).bind fun s hs ↦ Ensures.skip fun _ ↦ Ensures.skip fun _ ↦
      Ensures.skip fun _ ↦ Ensures.skip fun _ ↦ Ensures.skip fun _ ↦ Ensures.skip fun _ ↦
      (store_based hs).bind fun s hs ↦ Ensures.skip fun _ ↦ Ensures.skip fun _ ↦
      (store_based hs).bind fun s hs ↦ Ensures.skip fun _ ↦ listed_ne_zero hs

/-- Memory from `mem_sbrk` is returned as a block. -/
theorem extendHeapWith_ne_zero (hs : Based s) (n brk bp : ℕ) :
    Ensures (extendHeapWith n (some bp, { s with brk := brk })) fun r ↦ r.1 ≠ 0 := by
  have hgrown : Based { s with brk := brk } := hs
  exact (store_based hgrown).bind fun s hs ↦ Ensures.skip fun _ ↦ (store_based hs).bind fun s hs ↦
    Ensures.skip fun _ ↦ (store_based hs).bind fun s hs ↦ coalesce_ne_zero hs

theorem extendHeap_ne_zero (hs : Based s) {words : ℕ} (h : ¬Refused s (extendSize words)) :
    Ensures (extendHeap s words) fun r ↦ r.1 ≠ 0 := by
  rw [extendHeap, memSbrk_granted h]
  exact extendHeapWith_ne_zero hs _ _ _

/-! ### When `mm_malloc` returns `NULL` -/

/-- There is no free block for the size, and no memory for one. -/
def NoMemory (s : State) (blocks : List Block) (asize : ℕ) : Prop :=
  ¬HasFit blocks asize ∧ Refused s (demand asize)

/-- `mm_malloc` returns `NULL` exactly when there is no memory, and leaves the state then. -/
theorem mmMalloc_null_iff (h : Heap s blocks fl) (hpos : 0 < size) : ∃ bound, ∀ fuel, bound < fuel →
    (NoMemory s blocks (adjustedSize size) → mmMalloc fuel s size = some (0, s)) ∧
      (¬NoMemory s blocks (adjustedSize size) → Ensures (mmMalloc fuel s size) fun r ↦ r.1 ≠ 0) := by
  rcases h.bestFit (adjustedSize size) with ⟨hfit, hsmall⟩ | ⟨f, hf, hfree, hle, -, hfit⟩
  · have hnone : ¬HasFit blocks (adjustedSize size) := fun ⟨c, hc, hcfree, henough⟩ ↦
      absurd (hsmall c hc hcfree) (Nat.not_lt.mpr henough)
    obtain ⟨bound, hbound⟩ := mmMalloc_grow size hpos hfit
    refine ⟨bound, fun fuel hfuel ↦ ⟨fun hno ↦ ?_, fun hmemory ↦ ?_⟩⟩
    · rw [hbound fuel hfuel, extendHeap_refused hno.2]
      rfl
    · have hgranted : ¬Refused s (demand (adjustedSize size)) := fun hrefused ↦
        hmemory ⟨hnone, hrefused⟩
      rw [hbound fuel hfuel]
      refine (extendHeap_ne_zero h.placed.pos hgranted).bind fun r hr ↦ ?_
      rw [if_neg hr]
      exact Ensures.skip fun s' ↦ Ensures.pure hr
  · obtain ⟨bound, hbound⟩ := hfit
    have hbounds := (h.bounds hf).1
    have hbp : f.bp ≠ 0 := by omega
    refine ⟨bound, fun fuel hfuel ↦ ⟨fun hno ↦ absurd ⟨f, hf, hfree, hle⟩ hno.1, fun _ ↦ ?_⟩⟩
    have hsearch : bestFit fuel s (adjustedSize size) = some f.bp := hbound fuel hfuel
    unfold mmMalloc
    rw [if_neg hpos.ne']
    dsimp only
    rw [hsearch]
    have hfound : Ensures (some f.bp) fun bp ↦ bp = f.bp := Ensures.pure rfl
    refine hfound.bind fun bp heq ↦ ?_
    subst heq
    rw [if_pos hbp]
    exact Ensures.skip fun s' ↦ Ensures.pure hbp

/-! ### What `mm_malloc` makes of the heap -/

/-- An allocated block with room for the payload, in place of free ones or of new memory; the others are
kept. -/
structure Serves (s : State) (blocks : List Block) (size : ℕ) (b : Block) (s' : State)
    (blocks' : List Block) : Prop where
  alloc : b.alloc = true
  payload : size + 8 ≤ b.size
  start : s'.startBrk = s.startBrk
  grows : s.brk ≤ s'.brk
  replaced : ∃ l mid r rest, blocks = l ++ mid ++ r ∧ blocks' = l ++ b :: (rest ++ r) ∧
    (∀ c ∈ mid, c.alloc = false) ∧ (∀ c ∈ rest, c.alloc = false) ∧ ∀ c ∈ l ++ r, Kept s s' c

theorem Allocates.serves {blocks' : List Block} (h : Allocates s blocks asize b s' blocks')
    (hsize : size + 8 ≤ asize) : Serves s blocks size b s' blocks' :=
  ⟨h.alloc, hsize.trans h.enough, h.start, h.grows, h.replaced⟩

theorem Serves.mem {blocks' : List Block} (h : Serves s blocks size b s' blocks') : b ∈ blocks' := by
  obtain ⟨l, mid, r, rest, -, rfl, -⟩ := h.replaced
  simp

/-- The blocks that stay are large enough, and the free ones. -/
theorem Allocates.wellFormed {blocks' : List Block} {fl' : List ℕ} (h : WellFormed s blocks fl)
    (hheap : Heap s' blocks' fl') (halloc : Allocates s blocks asize b s' blocks')
    (hb : 24 ≤ b.size) : WellFormed s' blocks' fl' := by
  refine ⟨hheap, fun c hc ↦ ?_⟩
  by_cases hfree : c.alloc = false
  · exact hheap.room c hc hfree
  · obtain ⟨l, mid, r, rest, rfl, rfl, -, hrest, -⟩ := halloc.replaced
    rcases List.mem_append.mp hc with hc | hc
    · exact h.minimum c (by simp [hc])
    · rcases List.mem_cons.mp hc with rfl | hc
      · exact hb
      · rcases List.mem_append.mp hc with hc | hc
        · exact absurd (hrest c hc) hfree
        · exact h.minimum c (by simp [hc])

/-- A block is no larger than the memory of `mem_init`. -/
theorem Tiled.size_le (h : Tiled s blocks) (hb : b ∈ blocks) : b.size ≤ MAX_HEAP := by
  have hbounds := h.bounds hb
  have htop := h.top
  omega

/-- `mm_malloc (size)` refuses the request or serves it in a well-formed heap. -/
def MallocKeeps (s : State) (blocks : List Block) (size : ℕ) : Prop :=
  Returns (fun fuel ↦ mmMalloc fuel s size) (0, s) ∨ ∃ b s' blocks' fl',
    Returns (fun fuel ↦ mmMalloc fuel s size) (b.bp, s') ∧ WellFormed s' blocks' fl' ∧
      Serves s blocks size b s' blocks'

/-- A size for which `mm_malloc` takes a block of 16 bytes. -/
theorem adjustedSize_small (hpos : 0 < size) (hsize : size ≤ 8) : adjustedSize size = 16 := by
  have hcases : size = 1 ∨ size = 2 ∨ size = 3 ∨ size = 4 ∨ size = 5 ∨ size = 6 ∨ size = 7 ∨
      size = 8 := by omega
  rcases hcases with rfl | rfl | rfl | rfl | rfl | rfl | rfl | rfl <;> decide

/-- A block of 24 bytes or more leaves the heap well formed. -/
theorem mallocKeeps_of_allocates {blocks' : List Block} {fl' : List ℕ} (h : WellFormed s blocks fl)
    (hreturns : Returns (fun fuel ↦ mmMalloc fuel s size) (b.bp, s')) (hheap : Heap s' blocks' fl')
    (hallocates : Allocates s blocks asize b s' blocks') (hsize : size + 8 ≤ asize) (hb : 24 ≤ b.size) :
    MallocKeeps s blocks size :=
  Or.inr ⟨b, s', blocks', fl', hreturns, hallocates.wellFormed h hheap hb, hallocates.serves hsize⟩

/-- A smaller one does not. -/
theorem not_mallocKeeps_of_allocates {blocks' : List Block} {fl' : List ℕ}
    (hreturns : Returns (fun fuel ↦ mmMalloc fuel s size) (b.bp, s')) (hheap : Heap s' blocks' fl')
    (hmem : b ∈ blocks') (hb : b.size < 24) : ¬MallocKeeps s blocks size := by
  rintro (hnull | ⟨c, s'', blocks'', fl'', hreturns', hheap', hserves⟩)
  · have hbounds := (hheap.bounds hmem).1
    have hzero := (Prod.mk.inj (hreturns.unique hnull)).1
    omega
  · obtain ⟨hbp, rfl⟩ := Prod.mk.inj (hreturns.unique hreturns')
    have hminimum := hheap'.minimum c hserves.mem
    have hsize := hheap.getSize_hdrp hmem
    rw [hbp, hheap'.getSize_hdrp hserves.mem] at hsize
    have heq := Option.some.inj hsize
    omega

/-- A payload of at most 8 bytes. -/
theorem mallocKeeps_small (h : WellFormed s blocks fl) (hpos : 0 < size) (hsmall : size ≤ 8) :
    MallocKeeps s blocks size ↔ HasTight blocks 16 ∨ NoMemory s blocks 16 := by
  have hmax : MAX_HEAP = 20971520 := rfl
  have hspec := mmMalloc_spec h.toHeap hpos (by omega)
  have hasize := (adjustedSize_spec size hpos (by omega)).2.2.1
  rw [adjustedSize_small hpos hsmall] at hspec hasize
  rcases hspec with ⟨hreturns, hno⟩ | ⟨hmemory, b, s', blocks', fl', hreturns, hheap, hallocates⟩
  · exact iff_of_true (Or.inl hreturns) (Or.inr hno)
  · have hmem := (hallocates.serves hasize).mem
    by_cases htight : HasTight blocks 16
    · exact iff_of_true (mallocKeeps_of_allocates h hreturns hheap hallocates hasize
        (hallocates.whole htight)) (Or.inl htight)
    · have hsize := hallocates.split htight
      refine iff_of_false (not_mallocKeeps_of_allocates hreturns hheap hmem (by omega)) ?_
      rintro (hyes | hno)
      · exact htight hyes
      · exact hmemory.elim hno.1 fun hgranted ↦ hgranted hno.2

/-- A payload that is neither small nor larger than the memory of `mem_init`. -/
theorem mallocKeeps_medium (h : WellFormed s blocks fl) (hsmall : 8 < size) (hle : size ≤ MAX_HEAP) :
    MallocKeeps s blocks size := by
  have hmax : MAX_HEAP = 20971520 := rfl
  have hasize := adjustedSize_spec size (by omega) (by omega)
  rcases mmMalloc_spec h.toHeap (by omega) hle with ⟨hreturns, -⟩ |
    ⟨-, b, s', blocks', fl', hreturns, hheap, hallocates⟩
  · exact Or.inl hreturns
  · have henough := hallocates.enough
    exact mallocKeeps_of_allocates h hreturns hheap hallocates hasize.2.2.1 (by omega)

/-- A payload that is larger. -/
theorem mallocKeeps_large (h : WellFormed s blocks fl) (hlarge : MAX_HEAP < size)
    (hint : size < 2 ^ 31) : MallocKeeps s blocks size ↔ Refused s (demand (adjustedSize size)) := by
  have hmax : MAX_HEAP = 20971520 := rfl
  have hasize := adjustedSize_spec size (by omega) (by omega)
  have hnone : ¬HasFit blocks (adjustedSize size) := by
    rintro ⟨c, hc, -, hle⟩
    have hsize := h.size_le hc
    omega
  obtain ⟨bound, hnull⟩ := mmMalloc_null_iff h.toHeap (show 0 < size by omega)
  refine ⟨fun hkeeps ↦ ?_, fun hrefused ↦ Or.inl ⟨bound, fun fuel hfuel ↦
    (hnull fuel hfuel).1 ⟨hnone, hrefused⟩⟩⟩
  by_contra hgranted
  rcases hkeeps with ⟨bound', hreturns⟩ | ⟨b, s', blocks', fl', -, hheap, hserves⟩
  · exact (hnull (bound + bound' + 1) (by omega)).2 (fun hno ↦ hgranted hno.2) _
      (hreturns (bound + bound' + 1) (by omega)) rfl
  · have hsize := hheap.size_le hserves.mem
    have hpayload := hserves.payload
    omega

/-- `mm_malloc` keeps a well-formed heap well formed, except where a payload of at most 8 bytes gets a
block of 16 bytes, and where `mem_sbrk` grants what does not fit into an `int`. -/
theorem mmMalloc_keeps_iff (h : WellFormed s blocks fl) (hpos : 0 < size) (hint : size < 2 ^ 31) :
    MallocKeeps s blocks size ↔
      (size ≤ 8 → HasTight blocks 16 ∨ NoMemory s blocks 16) ∧
        (MAX_HEAP < size → Refused s (demand (adjustedSize size))) := by
  have hmax : MAX_HEAP = 20971520 := rfl
  by_cases hsmall : size ≤ 8
  · rw [mallocKeeps_small h hpos hsmall]
    exact ⟨fun hcond ↦ ⟨fun _ ↦ hcond, fun hlarge ↦ by omega⟩, fun hcond ↦ hcond.1 hsmall⟩
  · by_cases hlarge : MAX_HEAP < size
    · rw [mallocKeeps_large h hlarge hint]
      exact ⟨fun hrefused ↦ ⟨fun hle ↦ absurd hle hsmall, fun _ ↦ hrefused⟩, fun hcond ↦ hcond.2 hlarge⟩
    · exact iff_of_true (mallocKeeps_medium h (by omega) (by omega))
        ⟨fun hle ↦ absurd hle hsmall, fun hlt ↦ absurd hlt hlarge⟩

/-- In the heap with the hole a byte gets a block of 24 bytes. -/
theorem mmMalloc_keeps_hole : MallocKeeps hole ([⟨24, 24, false⟩] ++ ⟨48, 40, true⟩ :: []) 1 ↔
    (1 ≤ 8 → HasTight ([⟨24, 24, false⟩] ++ ⟨48, 40, true⟩ :: []) 16 ∨
      NoMemory hole ([⟨24, 24, false⟩] ++ ⟨48, 40, true⟩ :: []) 16) ∧
        (MAX_HEAP < 1 → Refused hole (demand (adjustedSize 1))) :=
  mmMalloc_keeps_iff wellFormed_hole (by decide) (by decide)

/-- A heap without blocks. -/
def bare : State where
  mem
    | 12 | 16 => 9
    | 20 => 1
    | _ => 0
  startBrk := 8
  brk := 24
  freeListp := 0

theorem load_bare {p n : ℕ} (hle : 8 ≤ p) (hlt : p + n ≤ 24) : load bare p n = some (bare.mem.load p n) := by
  refine load_eq ⟨hle, Nat.le_trans hlt ?_⟩
  decide

theorem wellFormed_bare : WellFormed bare [] [] where
  placed := ⟨by decide, by decide, by decide⟩
  top := by decide
  tiles := rfl
  prologue := ⟨load_bare (by decide) (by decide), load_bare (by decide) (by decide)⟩
  tagged b hb := absurd hb List.not_mem_nil
  epilogue := load_bare (by decide) (by decide)
  sized b hb := absurd hb List.not_mem_nil
  linked := by
    refine ⟨?_, List.nodup_nil⟩
    change Links _ _ [0, 0]
    rw [links_cons_cons]
    exact ⟨⟨rfl, rfl⟩, links_singleton⟩
  mem_iff x := iff_of_false List.not_mem_nil fun ⟨_, hb, _⟩ ↦ absurd hb List.not_mem_nil
  room b hb := absurd hb List.not_mem_nil
  settled := List.isChain_nil
  minimum b hb := absurd hb List.not_mem_nil

/-- A byte gets a block of 16 bytes there, so that the heap is not well formed any more. -/
theorem not_mmMalloc_keeps : ¬∀ (s : State) (blocks : List Block) (fl : List ℕ) (size : ℕ),
    WellFormed s blocks fl → 0 < size → size < 2 ^ 31 → MallocKeeps s blocks size := by
  intro hclaim
  rcases (mallocKeeps_small wellFormed_bare (show 0 < 1 by decide) (by decide)).mp
    (hclaim bare [] [] 1 wellFormed_bare (by decide) (by decide)) with ⟨b, hb, -⟩ | hno
  · exact absurd hb List.not_mem_nil
  · refine (not_refused_iff ?_).mpr ?_ hno.2 <;> decide

end Jungle.MallocLab
