import Jungle.MallocLab.BestFit
import Jungle.MallocLab.Grow
import Jungle.MallocLab.Place

/-!
# Allocating a block

`mm_malloc` takes the tightest free block, or one of the memory that `mem_sbrk` grants, and places the
allocated block in it. A request of more than `MAX_HEAP` bytes is refused by `mem_sbrk`, unless the
size that it gets is truncated: then the allocated block would not fit into the memory of `mem_init`.
-/

set_option autoImplicit false
set_option relaxedAutoImplicit false

namespace Jungle.MallocLab

open Jungle.Lib

variable {s s' : State} {blocks l mid r : List Block} {b c f q : Block} {fl : List ℕ}
  {size asize n bp x : ℕ} {m : Bytes}

/-! ### Sizes -/

/-- The size of a block holds the payload and the tags. -/
theorem adjustedSize_spec (size : ℕ) (hpos : 0 < size) (hlt : size < 2 ^ 64 - 15) :
    adjustedSize size % 8 = 0 ∧ 16 ≤ adjustedSize size ∧ size + 8 ≤ adjustedSize size ∧
      adjustedSize size ≤ size + 72 := by
  unfold adjustedSize
  split_ifs with hfirst hsecond
  · omega
  · omega
  · have halign : align ((size + DSIZE) % sizeMod) = (size + 15) / 8 * 8 := by
      unfold align DSIZE sizeMod
      rw [Nat.mod_eq_of_lt (by omega : size + 8 < 2 ^ 64), Nat.mod_eq_of_lt (by omega)]
    rw [halign]
    omega

/-- What `mm_malloc` asks `extend_heap` for. -/
def demand (asize : ℕ) : ℕ := extendSize (growth asize / 2)

/-- It is enough to split the block, as long as no size wraps. -/
theorem demand_spec (asize : ℕ) (hlt : asize < 2 ^ 29) :
    demand asize % 8 = 0 ∧ asize + 24 ≤ demand asize ∧ demand asize < 2 ^ 31 := by
  have hgrowth : asize ≤ growth asize ∧ 1024 ≤ growth asize ∧ growth asize < 2 ^ 30 - 8 := by
    have hwrap : (asize + asize / 24) % sizeMod = asize + asize / 24 :=
      Nat.mod_eq_of_lt (by unfold sizeMod; omega)
    unfold growth CHUNKSIZE
    rw [hwrap]
    split_ifs <;> omega
  have hbounds : demand asize % 8 = 0 ∧ 4 * (growth asize / 2) ≤ demand asize ∧
      demand asize ≤ 4 * (growth asize / 2 + 1) := by
    unfold demand extendSize WSIZE sizeMod
    split_ifs <;> omega
  omega

/-! ### Placing -/

/-- Where only a block and links change, the other blocks are kept. -/
theorem Heap.kept_of_frame (h : Heap s (l ++ f :: r) fl) (hc : c ∈ l ++ r)
    (hframe : ∀ z, ¬InBlock f z → ¬LinksOf fl z → s'.mem z = s.mem z) : Kept s s' c := by
  have hc' : c ∈ l ++ f :: r := by
    rcases List.mem_append.mp hc with hc | hc <;> simp [hc]
  intro x hx hlinks
  refine hframe x (h.not_inBlock hc' (by simp) (fun heq ↦ ?_) hx) (h.not_linksOf hc' hx hlinks)
  exact h.bp_ne (List.Sublist.refl _) hc (congrArg Block.bp heq)

/-- What `place` leaves of a free block: the allocated block, and a free one if there is room for it. -/
structure Carved (f b : Block) (rest : List Block) (asize : ℕ) : Prop where
  bp : b.bp = f.bp
  alloc : b.alloc = true
  enough : asize ≤ b.size
  split : (b.size = f.size ∧ f.size < asize + 24 ∧ rest = []) ∨
    b.size = asize ∧ rest = [⟨f.bp + asize, f.size - asize, false⟩] ∧ asize + 24 ≤ f.size

/-- `place` allocates a free block. -/
theorem place_spec (h : Heap s (l ++ f :: r) fl) (hf : f.alloc = false)
    (hasize : asize % 8 = 0 ∧ 16 ≤ asize) (hle : asize ≤ f.size) : ∃ m p b rest fl',
      place s f.bp asize = some { s with mem := m, freeListp := p } ∧ Carved f b rest asize ∧
      Heap { s with mem := m, freeListp := p } (l ++ b :: (rest ++ r)) fl' ∧
      ∀ c ∈ l ++ r, Kept s { s with mem := m, freeListp := p } c := by
  by_cases hroom : asize + 24 ≤ f.size
  · obtain ⟨m, heq, hheap, hframe⟩ := place_split h hf hasize hroom
    exact ⟨m, _, ⟨f.bp, asize, true⟩, [_], _, heq, ⟨rfl, rfl, Nat.le_refl _, Or.inr ⟨rfl, rfl, hroom⟩⟩,
      hheap, fun c hc ↦ h.kept_of_frame hc hframe⟩
  · obtain ⟨m, p, heq, hheap, hframe⟩ := place_whole h hf hle (Nat.not_le.mp hroom)
    exact ⟨m, p, ⟨f.bp, f.size, true⟩, [], _, heq,
      ⟨rfl, rfl, hle, Or.inl ⟨rfl, Nat.not_le.mp hroom, rfl⟩⟩, hheap,
      fun c hc ↦ h.kept_of_frame hc hframe⟩

/-! ### The search -/

/-- The size of the block at an address, `0` if there is none. -/
def sizeAt (blocks : List Block) (x : ℕ) : ℕ :=
  ((blocks.find? fun b ↦ b.bp == x).map Block.size).getD 0

theorem Tiled.sizeAt_eq (h : Tiled s blocks) (hb : b ∈ blocks) : sizeAt blocks b.bp = b.size := by
  have hsome : (blocks.find? fun c ↦ c.bp == b.bp).isSome :=
    List.find?_isSome.mpr ⟨b, hb, by simp⟩
  obtain ⟨c, hc⟩ := Option.isSome_iff_exists.mp hsome
  have hbp : c.bp = b.bp := by simpa using List.find?_some hc
  have hcb := h.eq_of_bp_eq (List.mem_of_find?_eq_some hc) hb hbp
  rw [sizeAt, hc, Option.map_some, Option.getD_some, hcb]

/-- `best_fit` in a heap: `NULL` if no free block is large enough, and a smallest one that is. -/
theorem Heap.bestFit (h : Heap s blocks fl) (asize : ℕ) :
    (Returns (fun fuel ↦ MallocLab.bestFit fuel s asize) 0 ∧
      ∀ c ∈ blocks, c.alloc = false → c.size < asize) ∨
    ∃ f ∈ blocks, f.alloc = false ∧ asize ≤ f.size ∧
      (∀ c ∈ blocks, c.alloc = false → asize ≤ c.size → f.size ≤ c.size) ∧
      Returns (fun fuel ↦ MallocLab.bestFit fuel s asize) f.bp := by
  have hcells := h.cells h.roomy
  obtain ⟨best, hreturns, hfound⟩ := bestFit_spec (sizeAt blocks) h.linked
    (fun c hc ↦ ⟨hcells.ne_zero h.placed hc, hcells.next_arena hc⟩) (fun c hc ↦ by
      obtain ⟨b, hb, -, rfl⟩ := (h.mem_iff c).mp hc
      rw [h.getSize_hdrp hb, h.sizeAt_eq hb]) asize
  have hlisted : ∀ c ∈ blocks, c.alloc = false → c.bp ∈ fl := fun c hc hfree ↦
    (h.mem_iff c.bp).mpr ⟨c, hc, hfree, rfl⟩
  rcases hfound with ⟨rfl, hnone⟩ | htightest
  · refine Or.inl ⟨hreturns, fun c hc hfree ↦ ?_⟩
    rw [← h.sizeAt_eq hc]
    exact hnone c.bp (hlisted c hc hfree)
  · obtain ⟨f, hf, hfree, rfl⟩ := (h.mem_iff best).mp htightest.mem
    refine Or.inr ⟨f, hf, hfree, ?_, fun c hc hcfree henough ↦ ?_, hreturns⟩
    · rw [← h.sizeAt_eq hf]
      exact htightest.enough
    · rw [← h.sizeAt_eq hf, ← h.sizeAt_eq hc]
      exact htightest.le (hlisted c hc hcfree) (h.sizeAt_eq hc ▸ henough)

/-! ### `mm_malloc` -/

/-- There is a free block of at least the size. -/
def HasFit (blocks : List Block) (asize : ℕ) : Prop :=
  ∃ c ∈ blocks, c.alloc = false ∧ asize ≤ c.size

/-- `mm_malloc` where a free block is large enough. -/
theorem mmMalloc_fit (hpos : 0 < size) (hbp : f.bp ≠ 0)
    (hfit : Returns (fun fuel ↦ bestFit fuel s (adjustedSize size)) f.bp)
    (hplace : place s f.bp (adjustedSize size) = some s') :
    Returns (fun fuel ↦ mmMalloc fuel s size) (f.bp, s') := by
  obtain ⟨bound, hbound⟩ := hfit
  refine ⟨bound, fun fuel hfuel ↦ ?_⟩
  have hsearch : bestFit fuel s (adjustedSize size) = some f.bp := hbound fuel hfuel
  unfold mmMalloc
  dsimp only [Bind.bind]
  rw [if_neg hpos.ne', hsearch, Option.bind_some, if_pos hbp, hplace]
  rfl

/-- `mm_malloc` where none is. -/
theorem mmMalloc_grow (size : ℕ) (hpos : 0 < size)
    (hfit : Returns (fun fuel ↦ bestFit fuel s (adjustedSize size)) 0) : ∃ bound, ∀ fuel, bound < fuel →
      mmMalloc fuel s size = (extendHeap s (growth (adjustedSize size) / 2)).bind fun r ↦
        if r.1 = 0 then some (0, r.2)
        else (place r.2 r.1 (adjustedSize size)).bind fun s' ↦ some (r.1, s') := by
  obtain ⟨bound, hbound⟩ := hfit
  refine ⟨bound, fun fuel hfuel ↦ ?_⟩
  have hsearch : bestFit fuel s (adjustedSize size) = some 0 := hbound fuel hfuel
  unfold mmMalloc
  dsimp only [Bind.bind]
  rw [if_neg hpos.ne', hsearch, Option.bind_some, if_neg (by simp)]
  rfl

/-- `mm_malloc` refuses a request. -/
theorem mmMalloc_refused (hpos : 0 < size)
    (hfit : Returns (fun fuel ↦ bestFit fuel s (adjustedSize size)) 0)
    (hrefused : Refused s (demand (adjustedSize size))) :
    Returns (fun fuel ↦ mmMalloc fuel s size) (0, s) := by
  obtain ⟨bound, hbound⟩ := mmMalloc_grow size hpos hfit
  refine ⟨bound, fun fuel hfuel ↦ ?_⟩
  change mmMalloc fuel s size = _
  rw [hbound fuel hfuel, extendHeap_refused hrefused]
  rfl

/-- A free block in which the allocated one leaves no free block. -/
def HasTight (blocks : List Block) (asize : ℕ) : Prop :=
  ∃ c ∈ blocks, c.alloc = false ∧ asize ≤ c.size ∧ c.size < asize + 24

/-- An allocated block in place of free ones, and the heap behind it. -/
structure Allocates (s : State) (blocks : List Block) (asize : ℕ) (b : Block) (s' : State)
    (blocks' : List Block) : Prop where
  alloc : b.alloc = true
  enough : asize ≤ b.size
  start : s'.startBrk = s.startBrk
  grows : s.brk ≤ s'.brk
  replaced : ∃ l mid r rest, blocks = l ++ mid ++ r ∧ blocks' = l ++ b :: (rest ++ r) ∧
    (∀ c ∈ mid, c.alloc = false) ∧ (∀ c ∈ rest, c.alloc = false) ∧ ∀ c ∈ l ++ r, Kept s s' c
  whole : HasTight blocks asize → 24 ≤ b.size
  split : ¬HasTight blocks asize → b.size = asize

/-- A block is allocated in a free one. -/
theorem Carved.allocates {rest : List Block} {p : ℕ} (h : Carved f b rest asize)
    (hheap : Heap s (l ++ f :: r) fl) (hf : f.alloc = false)
    (htight : ∀ c ∈ l ++ f :: r, c.alloc = false → asize ≤ c.size → f.size ≤ c.size)
    (hkept : ∀ c ∈ l ++ r, Kept s { s with mem := m, freeListp := p } c) :
    Allocates s (l ++ f :: r) asize b { s with mem := m, freeListp := p }
      (l ++ b :: (rest ++ r)) := by
  have hroom := hheap.room f (by simp) hf
  have hfree : ∀ c ∈ rest, c.alloc = false := by
    intro c hc
    rcases h.split with ⟨-, -, rfl⟩ | ⟨-, rfl, -⟩
    · exact absurd hc List.not_mem_nil
    · rw [List.mem_singleton.mp hc]
  refine ⟨h.alloc, h.enough, rfl, Nat.le_refl _, ⟨l, [f], r, rest, by simp, rfl, ?_, hfree, hkept⟩,
    fun ⟨c, hc, hcfree, henough, hlt⟩ ↦ ?_, fun hnone ↦ ?_⟩
  · intro c hc
    rw [List.mem_singleton.mp hc, hf]
  · have hle := htight c hc hcfree henough
    rcases h.split with ⟨hsize, -⟩ | ⟨-, -, hsplit⟩
    · omega
    · omega
  · rcases h.split with ⟨hsize, hlt, -⟩ | ⟨hsize, -⟩
    · refine absurd ⟨f, by simp, hf, ?_, hlt⟩ hnone
      have henough := h.enough
      omega
    · exact hsize

/-- `mm_malloc` in a free block. -/
theorem mmMalloc_best (h : Heap s blocks fl) (hpos : 0 < size) (hsize : size < 2 ^ 64 - 15)
    (hf : f ∈ blocks) (hfree : f.alloc = false) (hle : adjustedSize size ≤ f.size)
    (htight : ∀ c ∈ blocks, c.alloc = false → adjustedSize size ≤ c.size → f.size ≤ c.size)
    (hfit : Returns (fun fuel ↦ bestFit fuel s (adjustedSize size)) f.bp) : ∃ b s' blocks' fl',
      Returns (fun fuel ↦ mmMalloc fuel s size) (b.bp, s') ∧ Heap s' blocks' fl' ∧
        Allocates s blocks (adjustedSize size) b s' blocks' := by
  obtain ⟨l, r, rfl⟩ := List.append_of_mem hf
  have hasize := adjustedSize_spec size hpos hsize
  obtain ⟨m, p, b, rest, fl', hplace, hcarved, hheap, hkept⟩ :=
    place_spec h hfree ⟨hasize.1, hasize.2.1⟩ hle
  have hbp : f.bp ≠ 0 := by
    have hbounds := (h.bounds hf).1
    omega
  refine ⟨b, _, _, fl', ?_, hheap, hcarved.allocates h hfree htight hkept⟩
  rw [hcarved.bp]
  exact mmMalloc_fit hpos hbp hfit hplace

/-- `mm_malloc` in memory that `mem_sbrk` grants. -/
theorem mmMalloc_extend (h : Heap s blocks fl) (hpos : 0 < size) (hsize : size ≤ MAX_HEAP)
    (hfit : Returns (fun fuel ↦ bestFit fuel s (adjustedSize size)) 0)
    (hnone : ¬HasFit blocks (adjustedSize size))
    (hgranted : ¬Refused s (demand (adjustedSize size))) : ∃ b s' blocks' fl',
      Returns (fun fuel ↦ mmMalloc fuel s size) (b.bp, s') ∧ Heap s' blocks' fl' ∧
        Allocates s blocks (adjustedSize size) b s' blocks' := by
  have hmax : MAX_HEAP = 20971520 := rfl
  have hasize := adjustedSize_spec size hpos (by omega)
  generalize hn : adjustedSize size = asize at hasize hfit hnone hgranted ⊢
  obtain ⟨hdvd, hdemand, hlt⟩ := demand_spec asize (by omega)
  have hfits := (not_refused_iff hlt).mp hgranted
  obtain ⟨l, p, q, m, rfl, hmerged, hextend, hheap, hframe⟩ :=
    extendHeapWith_spec h ⟨hdvd, by omega⟩ hlt hfits
  have hq := hmerged.bounds
  replace hq : q.bp ≤ s.brk ∧ s.brk + demand asize ≤ q.bp + q.size := hq
  have hle : asize + 24 ≤ q.size := by omega
  obtain ⟨m', p', b, rest, fl', hplace, hcarved, hheap', hkept⟩ :=
    place_spec hheap hmerged.free ⟨hasize.1, hasize.2.1⟩ (by omega)
  have hbp : q.bp ≠ 0 := by
    have hbounds := (hheap.bounds (b := q) (by simp)).1
    dsimp only at hbounds
    omega
  have hfront : ∀ c ∈ p, c.alloc = false := by
    intro c hc
    rcases hmerged.front with ⟨rfl, -⟩ | ⟨P, rfl, hP⟩
    · exact absurd hc List.not_mem_nil
    · rw [List.mem_singleton.mp hc, hP]
  have hold : ∀ c ∈ l ++ [], Kept s { s with mem := m, brk := s.brk + demand asize, freeListp := q.bp } c := by
    intro c hc x hx hlinks
    rw [List.append_nil] at hc
    have hcmem : c ∈ l ++ p := by simp [hc]
    have hbounds := (h.bounds hcmem).2
    refine hframe x ?_ (h.not_linksOf hcmem hx hlinks) ?_
    · refine hheap.not_inBlock (c := q) (b := c) (by simp [hc]) (by simp) (fun heq ↦ ?_) hx
      exact hheap.bp_ne (List.Sublist.refl _) (by simp [hc]) (congrArg Block.bp heq)
    · unfold InBlock at hx
      omega
  refine ⟨b, _, _, fl', ?_, hheap', ⟨hcarved.alloc, hcarved.enough, rfl, Nat.le_add_right _ _,
    ⟨l, p, [], rest, by simp, by simp, hfront, ?_, fun c hc ↦ (hold c hc).trans (hkept c hc)⟩,
    fun ⟨c, hc, hcfree, henough, _⟩ ↦ absurd ⟨c, hc, hcfree, henough⟩ hnone, fun _ ↦ ?_⟩⟩
  · obtain ⟨bound, hbound⟩ := mmMalloc_grow size hpos (hn ▸ hfit)
    refine ⟨bound, fun fuel hfuel ↦ ?_⟩
    change mmMalloc fuel s size = _
    have hcall : extendHeap s (growth asize / 2) = some (q.bp, _) := hextend
    rw [hbound fuel hfuel, hn, hcall, Option.bind_some, if_neg hbp, hplace, Option.bind_some,
      hcarved.bp]
  · intro c hc
    rcases hcarved.split with ⟨-, -, rfl⟩ | ⟨-, rfl, -⟩
    · exact absurd hc List.not_mem_nil
    · rw [List.mem_singleton.mp hc]
  · rcases hcarved.split with ⟨-, hlt, -⟩ | ⟨hsize, -⟩
    · omega
    · exact hsize

/-- `mm_malloc` of a size that can be had refuses the request or allocates a block. -/
theorem mmMalloc_spec (h : Heap s blocks fl) (hpos : 0 < size) (hsize : size ≤ MAX_HEAP) :
    (Returns (fun fuel ↦ mmMalloc fuel s size) (0, s) ∧ ¬HasFit blocks (adjustedSize size) ∧
      Refused s (demand (adjustedSize size))) ∨
    (HasFit blocks (adjustedSize size) ∨ ¬Refused s (demand (adjustedSize size))) ∧
      ∃ b s' blocks' fl', Returns (fun fuel ↦ mmMalloc fuel s size) (b.bp, s') ∧
        Heap s' blocks' fl' ∧ Allocates s blocks (adjustedSize size) b s' blocks' := by
  have hmax : MAX_HEAP = 20971520 := rfl
  rcases h.bestFit (adjustedSize size) with ⟨hfit, hsmall⟩ | ⟨f, hf, hfree, hle, htight, hfit⟩
  · have hnone : ¬HasFit blocks (adjustedSize size) := fun ⟨c, hc, hcfree, henough⟩ ↦
      absurd (hsmall c hc hcfree) (Nat.not_lt.mpr henough)
    by_cases hrefused : Refused s (demand (adjustedSize size))
    · exact Or.inl ⟨mmMalloc_refused hpos hfit hrefused, hnone, hrefused⟩
    · exact Or.inr ⟨Or.inr hrefused, mmMalloc_extend h hpos hsize hfit hnone hrefused⟩
  · exact Or.inr ⟨Or.inl ⟨f, hf, hfree, hle⟩,
      mmMalloc_best h hpos (by omega) hf hfree hle htight hfit⟩

end Jungle.MallocLab
