import Jungle.MallocLab.Requests

/-!
# Resizing a block

`mm_realloc` leaves a block in place, takes the free block behind it, or the one before it, or allocates
another one. The payload moves along, and the other blocks are kept (`mmRealloc_keeps_iff`). Sizes that
are close to the largest `size_t` wrap (`sizes_granted_iff`).
-/

set_option autoImplicit false
set_option relaxedAutoImplicit false

namespace Jungle.MallocLab

open Jungle.Lib

variable {s s' : State} {blocks blocks' l r : List Block} {b c f q P N : Block} {fl : List ℕ}
  {size asize n : ℕ} {m : Bytes}

/-! ### Payloads -/

/-- A byte between the header and the footer. -/
def InPayload (b : Block) (x : ℕ) : Prop := b.bp ≤ x ∧ x + DSIZE < b.bp + b.size

theorem InPayload.inBlock {x : ℕ} (h : InPayload b x) : InBlock b x := by
  unfold InPayload InBlock WSIZE DSIZE at *
  omega

theorem InPayload.not_onTag {x : ℕ} (h : InPayload b x) : ¬OnTag b x := by
  unfold InPayload OnTag WSIZE DSIZE at *
  omega

/-- The heap does not depend on the payload of an allocated block. -/
theorem Heap.fill (h : Heap s (l ++ b :: r) fl) (hb : b.alloc = true)
    (hframe : ∀ z, ¬InPayload b z → m z = s.mem z) : Heap { s with mem := m } (l ++ b :: r) fl := by
  have hmem : b ∈ l ++ b :: r := by simp
  have hsized := h.sized b hmem
  have hbounds := (h.bounds hmem).1
  have htiled : Tiled s (l ++ [b] ++ r) := by simpa using h.toTiled
  have hmid : Tiles Block.bp Block.size b.bp [b] (b.bp + b.size) := ⟨rfl, rfl⟩
  obtain ⟨hl, hr⟩ := htiled.tiles.cut hmid (by simp)
  have hroomy : Roomy (l ++ [b] ++ r) [] := fun c hc ↦ absurd hc List.not_mem_nil
  have htag : Tagged { s with mem := m, freeListp := s.freeListp } b := by
    refine (h.tagged b hmem).congr ?_ rfl fun x hx ↦ hframe x fun hpayload ↦ hpayload.not_onTag hx
    unfold DSIZE
    omega
  have hfilled : Tiled { s with mem := m, freeListp := s.freeListp } (l ++ [b] ++ r) := by
    refine htiled.replace hroomy hl hmid hr ?_ ?_ fun z hz _ ↦ hframe z fun hpayload ↦ hz ?_
    · intro c hc
      exact List.mem_singleton.mp hc ▸ htag
    · intro c hc
      exact List.mem_singleton.mp hc ▸ hsized
    · exact hpayload.inBlock
  have hlisted := (h.toListed.erase_alloc hb).frame h.toTiled fun z hz ↦
    hframe z fun hpayload ↦ hz hpayload.inBlock
  rw [List.append_assoc, List.singleton_append] at hfilled
  exact ⟨hfilled, hlisted.insert_alloc hb, h.settled⟩

/-- `memcpy` of a payload. -/
theorem memcpy_eq (s : State) (dst src n : ℕ) (hdst : InArena s dst n) (hsrc : InArena s src n)
    (horder : dst ≤ src ∨ src + n ≤ dst) :
    memcpy s dst src n = some { s with mem := s.mem.copy dst s.mem src n } := by
  unfold memcpy
  split_ifs with hzero harena
  · rw [hzero, Bytes.copy_zero]
  · rw [Bytes.copyUp_eq horder]
  · exact absurd ⟨hdst, hsrc⟩ harena

/-! ### Taking a free neighbour -/

/-- An allocated block and a free one next to it become an allocated block. -/
theorem Heap.absorb {mid l' r' : List Block} (h : Heap s (l ++ mid ++ r) fl)
    (hmid : Tiles Block.bp Block.size q.bp mid (q.bp + q.size)) (hne : mid ≠ [])
    (hsized : q.size % 8 = 0 ∧ 16 ≤ q.size) (hq : q.alloc = true) (hb : b.alloc = true)
    (hf : f.alloc = false) (hsplit : l' ++ f :: r' = l ++ mid ++ r) (hrest : l' ++ r' = l ++ b :: r) :
    ∃ m p, removeFromFreeList s f.bp = some { s with mem := m, freeListp := p } ∧
      Tiled { s with mem := m, freeListp := p } (l ++ mid ++ r) ∧
      Heap { s with mem := tagAt m q.bp q.size q.tag, freeListp := p } (l ++ q :: r) (fl.erase f.bp) ∧
      ∀ z, ¬LinksOf fl z → m z = s.mem z := by
  obtain ⟨m, p, heq, htiled, hlisted, hframe⟩ :=
    h.take (hsplit ▸ List.Sublist.refl _) (hsplit ▸ h.toListed) hf
  rw [hrest] at hlisted
  have hretag := htiled.retag hmid hne hsized
  have hlisted' := (hlisted.erase_alloc hb).retag hretag
  rw [List.append_assoc, List.singleton_append] at hretag
  exact ⟨m, p, heq, htiled, ⟨hretag, hlisted'.insert_alloc hq, h.settled.allocate hq⟩, hframe⟩

/-- What `mm_realloc` makes of a block: the payload is in one that is large enough and none of the other
allocated blocks, which are kept. -/
structure Resizes (s : State) (blocks : List Block) (b : Block) (size : ℕ) (q : Block) (s' : State)
    (blocks' : List Block) : Prop where
  mem : q ∈ blocks'
  alloc : q.alloc = true
  payload : size + 8 ≤ q.size
  data : ∀ i < min size (b.size - 8), s'.mem (q.bp + i) = s.mem (b.bp + i)
  fresh : ∀ c ∈ blocks, c ≠ b → c.alloc = true → c.bp ≠ q.bp
  others : ∀ c ∈ blocks, c ≠ b → c.alloc = true → c ∈ blocks' ∧ Kept s s' c

theorem le_align (hint : size < 2 ^ 64 - 15) : size + 8 ≤ align ((size + DSIZE) % sizeMod) := by
  unfold align DSIZE sizeMod
  omega

/-- The block that takes the place of an allocated one and of free ones. -/
theorem resizes_of_replaced (h : WellFormed s blocks fl) {fl' : List ℕ} (h' : Heap s' (l ++ q :: r) fl')
    (hcover : ∀ c ∈ blocks, c = b ∨ c.alloc = false ∨ c ∈ l ++ r) (hsub : l ++ r ⊆ blocks)
    (hq : q.alloc = true) (hpayload : size + 8 ≤ q.size) (hroom : 24 ≤ q.size)
    (hdata : ∀ i < min size (b.size - 8), s'.mem (q.bp + i) = s.mem (b.bp + i))
    (hframe : ∀ z, ¬InBlock q z → ¬LinksOf fl z → s'.mem z = s.mem z) :
    WellFormed s' (l ++ q :: r) fl' ∧ Resizes s blocks b size q s' (l ++ q :: r) := by
  have hsub' : ∀ c ∈ l ++ r, c ∈ l ++ q :: r := by
    intro c hc
    rcases List.mem_append.mp hc with hc | hc <;> simp [hc]
  have hmem : ∀ c ∈ blocks, c ≠ b → c.alloc = true → c ∈ l ++ r := fun c hc hne halloc ↦
    ((hcover c hc).resolve_left hne).resolve_left (by simp [halloc])
  refine ⟨⟨h', fun c hc ↦ ?_⟩, by simp, hq, hpayload, hdata, fun c hc hne halloc ↦ ?_,
    fun c hc hne halloc ↦ ?_⟩
  · rcases List.mem_append.mp hc with hc | hc
    · exact h.minimum c (hsub (by simp [hc]))
    · rcases List.mem_cons.mp hc with rfl | hc
      · exact hroom
      · exact h.minimum c (hsub (by simp [hc]))
  · exact h'.bp_ne (List.Sublist.refl _) (hmem c hc hne halloc)
  · exact ⟨hsub' c (hmem c hc hne halloc), h.toHeap.kept h'.toTiled (hmem c hc hne halloc) hc hframe⟩

/-- The payload of an allocated block is neither in its tags nor in links. -/
theorem Heap.payload_kept (h : Heap s blocks fl) (hmem : b ∈ blocks) (hb : b.alloc = true) {x : ℕ}
    (hx : InPayload b x) (hq : ¬OnTag q x) (hbp : WSIZE ≤ q.bp) (hsize : DSIZE ≤ q.size) {v : ℕ}
    (hframe : ∀ z, ¬LinksOf fl z → m z = s.mem z) : tagAt m q.bp q.size v x = s.mem x := by
  rw [tagAt_frame hbp hsize hq]
  exact hframe x (h.not_linksOf hmem hx.inBlock fun hfree ↦ absurd hb (by simp [hfree]))

/-- The free block behind is taken. -/
theorem reallocForward_next (h : WellFormed s (l ++ b :: N :: r) fl) (hb : b.alloc = true)
    (hN : N.alloc = false) (hpayload : size + 8 ≤ asize) (henough : asize ≤ b.size + N.size) :
    ∃ q s' blocks' fl',
      (∀ fuel, reallocForward fuel s b.bp size b.size asize = some (q.bp, s')) ∧
        WellFormed s' blocks' fl' ∧ Resizes s (l ++ b :: N :: r) b size q s' blocks' := by
  have hmem : b ∈ l ++ b :: N :: r := by simp
  have hmemN : N ∈ l ++ b :: N :: r := by simp
  have hsized := h.sized b hmem
  have hsizedN := h.sized N hmemN
  have hbounds := (h.bounds hmem).1
  have hnextOf : nextOf s (N :: r) = N := rfl
  have hnextBlkp := h.nextBlkp (l := l) (b := b) (r := N :: r)
  obtain ⟨htag, hsizeN, hbpN⟩ := h.next (l := l) (b := b) (r := N :: r)
  rw [hnextOf] at hnextBlkp htag hsizeN hbpN
  have hheap : Heap s (l ++ [b, N] ++ r) fl := by simpa using h.toHeap
  have hmid : Tiles Block.bp Block.size b.bp [b, N] (b.bp + (b.size + N.size)) :=
    ⟨rfl, hbpN, by rw [Nat.add_assoc]; rfl⟩
  have hsum : (b.size + N.size) % 8 = 0 ∧ 16 ≤ b.size + N.size := by omega
  have hsplit : (l ++ [b]) ++ N :: r = l ++ [b, N] ++ r := by simp
  have hrest : (l ++ [b]) ++ r = l ++ b :: r := by simp
  obtain ⟨m, p, heq, htiled, habsorbed, hframe⟩ := hheap.absorb (q := ⟨b.bp, b.size + N.size, true⟩)
    hmid (by simp) hsum rfl hb hN hsplit hrest
  have hbp : WSIZE ≤ b.bp := by
    unfold WSIZE
    omega
  have hroom : DSIZE ≤ b.size + N.size := by
    unfold DSIZE
    omega
  refine ⟨⟨b.bp, b.size + N.size, true⟩, _, _, _, fun fuel ↦ ?_,
    resizes_of_replaced h habsorbed ?_ ?_ rfl (hpayload.trans henough) ?_ (fun i hi ↦ ?_) fun z hz hlinks ↦ ?_⟩
  · have hputs := htiled.putTags (q := ⟨b.bp, b.size + N.size, true⟩) hmid (by simp) hsum
      fun s ↦ some (b.bp, s)
    unfold reallocForward
    dsimp only [Bind.bind]
    rw [hnextBlkp, Option.bind_some, getAlloc_of_tag hsizeN htag, Option.bind_some,
      getSize_of_tag hsizeN htag, Option.bind_some, if_pos (by simp [hN]; omega), Option.bind_some,
      if_pos henough, heq, Option.bind_some]
    exact hputs
  · intro c hc
    simp only [List.mem_append, List.mem_cons] at hc ⊢
    rcases hc with hc | rfl | rfl | hc
    · exact Or.inr (Or.inr (Or.inl hc))
    · exact Or.inl rfl
    · exact Or.inr (Or.inl hN)
    · exact Or.inr (Or.inr (Or.inr hc))
  · intro c hc
    rcases List.mem_append.mp hc with hc | hc <;> simp [hc]
  · dsimp only
    omega
  · rw [Nat.lt_min] at hi
    refine h.toHeap.payload_kept hmem hb (q := ⟨b.bp, b.size + N.size, true⟩) ?_ ?_ hbp hroom hframe
    · unfold InPayload DSIZE
      dsimp only
      omega
    · unfold OnTag WSIZE DSIZE
      dsimp only
      omega
  · refine (tagAt_frame (q := ⟨b.bp, b.size + N.size, true⟩) hbp hroom fun htag ↦ hz ?_).trans
      (hframe z hlinks)
    exact htag.inBlock hroom

/-- The free block before is taken, and the payload moves into it. -/
theorem reallocBackward_prev (h : WellFormed s (l ++ P :: b :: r) fl) (hb : b.alloc = true)
    (hP : P.alloc = false) (hpayload : size + 8 ≤ asize) (henough : asize ≤ P.size + b.size) :
    ∃ q s' blocks' fl',
      (∀ fuel, reallocBackward fuel s b.bp size b.size asize = some (q.bp, s')) ∧
        WellFormed s' blocks' fl' ∧ Resizes s (l ++ P :: b :: r) b size q s' blocks' := by
  have hmem : b ∈ l ++ P :: b :: r := by simp
  have hmemP : P ∈ l ++ P :: b :: r := by simp
  have hsized := h.sized b hmem
  have hsizedP := h.sized P hmemP
  have hboundsP := (h.bounds hmemP).1
  have hstop := (h.bounds hmem).2
  have htop := h.top
  have hmax : MAX_HEAP = 20971520 := rfl
  obtain ⟨x, -, hxP, hrest⟩ := Tiles.append_iff.mp h.tiles
  have hbbp : b.bp = P.bp + P.size := hrest.1.trans (by rw [hxP])
  have hprevOf : prevOf s (l ++ [P]) = P := List.getLastD_concat
  have hprev := Tiled.prevBlkp (s := s) (l := l ++ [P]) (b := b) (r := r) (by simpa using h.toTiled)
  rw [hprevOf] at hprev
  have hheap : Heap s (l ++ [P, b] ++ r) fl := by simpa using h.toHeap
  have hmid : Tiles Block.bp Block.size P.bp [P, b] (P.bp + (P.size + b.size)) :=
    ⟨rfl, hbbp, by rw [← Nat.add_assoc]; rfl⟩
  have hsum : (P.size + b.size) % 8 = 0 ∧ 16 ≤ P.size + b.size := by omega
  have hsplit : l ++ P :: (b :: r) = l ++ [P, b] ++ r := by simp
  obtain ⟨m, p, heq, htiled, habsorbed, hframe⟩ := hheap.absorb (q := ⟨P.bp, P.size + b.size, true⟩)
    hmid (by simp) hsum rfl hb hP hsplit rfl
  have hbp : WSIZE ≤ P.bp := by
    unfold WSIZE
    omega
  have hroom : DSIZE ≤ P.size + b.size := by
    unfold DSIZE
    omega
  generalize htagged : tagAt m P.bp (P.size + b.size) (Block.tag ⟨P.bp, P.size + b.size, true⟩) = m' at habsorbed
  have hkept : ∀ x, InPayload b x → m' x = s.mem x := by
    intro x hx
    rw [← htagged]
    refine h.toHeap.payload_kept hmem hb (q := ⟨P.bp, P.size + b.size, true⟩) hx ?_ hbp hroom hframe
    unfold InPayload OnTag WSIZE DSIZE at *
    dsimp only
    omega
  have hmoved : ∀ z, ¬InPayload ⟨P.bp, P.size + b.size, true⟩ z →
      m'.copy P.bp m' b.bp (b.size - 8) z = m' z := by
    intro z hz
    refine Bytes.copy_of_not_mem fun hmem ↦ hz ?_
    unfold InPayload DSIZE
    dsimp only
    omega
  have hfilled := habsorbed.fill rfl hmoved
  refine ⟨⟨P.bp, P.size + b.size, true⟩, _, _, _, fun fuel ↦ ?_,
    resizes_of_replaced h hfilled ?_ ?_ rfl (hpayload.trans henough) ?_ (fun i hi ↦ ?_) fun z hz hlinks ↦ ?_⟩
  · have hputs := htiled.putTags (q := ⟨P.bp, P.size + b.size, true⟩) hmid (by simp) hsum fun s ↦
      (memcpy s P.bp b.bp ((b.size + sizeMod - DSIZE) % sizeMod)).bind fun s ↦ some (P.bp, s)
    have hcopy := memcpy_eq { s with mem := m', freeListp := p } P.bp b.bp (b.size - 8) ⟨?_, ?_⟩ ⟨?_, ?_⟩ (Or.inl (by omega))
    · unfold reallocBackward
      dsimp only [Bind.bind]
      rw [hprev, Option.bind_some, getAlloc_of_tag hsizedP.1 (h.tagged P hmemP).header,
        Option.bind_some, h.getSize_hdrp hmemP, Option.bind_some, if_pos (by simp [hP]; omega),
        Option.bind_some, if_pos henough, heq, Option.bind_some]
      refine hputs.trans ?_
      dsimp only
      rw [payload_eq hsized.2 (by omega), htagged, hcopy]
      rfl
    all_goals dsimp only; omega
  · intro c hc
    simp only [List.mem_append, List.mem_cons] at hc ⊢
    rcases hc with hc | rfl | rfl | hc
    · exact Or.inr (Or.inr (Or.inl hc))
    · exact Or.inr (Or.inl hP)
    · exact Or.inl rfl
    · exact Or.inr (Or.inr (Or.inr hc))
  · intro c hc
    rcases List.mem_append.mp hc with hc | hc <;> simp [hc]
  · dsimp only
    omega
  · rw [Nat.lt_min] at hi
    refine (Bytes.copy_of_mem ⟨Nat.le_add_right _ _, ?_⟩).trans ?_
    · omega
    · rw [Nat.add_sub_cancel_left]
      refine hkept _ ?_
      unfold InPayload DSIZE
      omega
  · refine (hmoved z fun hpayload ↦ hz hpayload.inBlock).trans ?_
    rw [← htagged]
    refine (tagAt_frame (q := ⟨P.bp, P.size + b.size, true⟩) hbp hroom fun htag ↦ hz ?_).trans
      (hframe z hlinks)
    exact htag.inBlock hroom

/-! ### Another block -/

/-- Bytes are stored in the payload of an allocated block. -/
theorem WellFormed.fill (h : WellFormed s blocks fl) (hmem : b ∈ blocks) (hb : b.alloc = true)
    (hframe : ∀ z, ¬InPayload b z → m z = s.mem z) : WellFormed { s with mem := m } blocks fl := by
  obtain ⟨l, r, rfl⟩ := List.append_of_mem hmem
  exact ⟨h.toHeap.fill hb hframe, h.minimum⟩

/-- The other blocks are kept then. -/
theorem Tiled.kept_fill (h : Tiled s blocks) (hmem : b ∈ blocks) (hc : c ∈ blocks) (hne : c ≠ b)
    (hframe : ∀ z, ¬InPayload b z → m z = s.mem z) : Kept s { s with mem := m } c :=
  fun z hz _ ↦ hframe z fun hpayload ↦ h.not_inBlock hc hmem hne hz hpayload.inBlock

/-- The allocated blocks are kept by `mm_malloc`. -/
theorem Allocates.kept {a : Block} {blocks' : List Block} (h : Allocates s blocks asize a s' blocks')
    (hc : c ∈ blocks) (halloc : c.alloc = true) : Kept s s' c := by
  obtain ⟨l, mid, r, rest, rfl, -, hmid, -, hkept⟩ := h.replaced
  rcases List.mem_append.mp hc with hc | hc
  · rcases List.mem_append.mp hc with hc | hc
    · exact hkept c (by simp [hc])
    · exact absurd halloc (by simp [hmid c hc])
  · exact hkept c (by simp [hc])

/-- The neighbours that `mm_free` merges are free. -/
theorem Merged.mem_of_alloc {p n : List Block} (h : Merged l p b n r q) (hc : c ∈ l ++ p ++ b :: (n ++ r))
    (hne : c ≠ b) (halloc : c.alloc = true) : c ∈ l ++ r := by
  have hfront : c ∉ p := by
    rcases h.front with ⟨rfl, -⟩ | ⟨P, rfl, hP⟩
    · exact List.not_mem_nil
    · intro hmem
      rw [List.mem_singleton.mp hmem, hP] at halloc
      exact Bool.noConfusion halloc
  have hback : c ∉ n := by
    rcases h.back with ⟨rfl, -⟩ | ⟨N, rfl, hN⟩
    · exact List.not_mem_nil
    · intro hmem
      rw [List.mem_singleton.mp hmem, hN] at halloc
      exact Bool.noConfusion halloc
  simp only [List.mem_append, List.mem_cons] at hc ⊢
  rcases hc with (hc | hc) | hc | hc | hc
  · exact Or.inl hc
  · exact absurd hc hfront
  · exact absurd hc hne
  · exact absurd hc hback
  · exact Or.inr hc

/-- The other allocated blocks are kept by `mm_free`. -/
theorem mmFree_keeps (h : WellFormed s blocks fl) (hmem : b ∈ blocks) (hb : b.alloc = true) :
    ∃ s' blocks' fl', mmFree s b.bp = some s' ∧ WellFormed s' blocks' fl' ∧
      ∀ c ∈ blocks, c ≠ b → c.alloc = true → c ∈ blocks' ∧ Kept s s' c := by
  obtain ⟨l, r, rfl⟩ := List.append_of_mem hmem
  obtain ⟨l', p, n, r', q, m, rfl, rfl, hmerged, heq, hheap, hkept⟩ := mmFree_wellFormed h hb
  refine ⟨_, _, _, heq, hheap, fun c hc hne halloc ↦ ?_⟩
  have hmem := hmerged.mem_of_alloc hc hne halloc
  refine ⟨?_, hkept c hmem⟩
  rcases List.mem_append.mp hmem with hmem | hmem <;> simp [hmem]

/-- A refused request leaves the old block. -/
theorem reallocMoving_null (h : Returns (fun fuel ↦ mmMalloc fuel s size) (0, s)) :
    Returns (fun fuel ↦ reallocMoving fuel s b.bp size b.size) (0, s) := by
  obtain ⟨bound, hbound⟩ := h
  refine ⟨bound, fun fuel hfuel ↦ ?_⟩
  have hcall : mmMalloc fuel s size = some (0, s) := hbound fuel hfuel
  change reallocMoving fuel s b.bp size b.size = _
  unfold reallocMoving
  dsimp only [Bind.bind]
  rw [hcall]
  rfl

/-- The payload is copied into a new block, and the old one is freed. -/
theorem reallocMoving_block {a : Block} {blocks' : List Block} {fl' : List ℕ} (hmem : b ∈ blocks)
    (hb : b.alloc = true) (hreturns : Returns (fun fuel ↦ mmMalloc fuel s size) (a.bp, s'))
    (h' : WellFormed s' blocks' fl') (hallocates : Allocates s blocks asize a s' blocks')
    (hasize : size + 8 ≤ asize) : ∃ s'' blocks'' fl'',
      Returns (fun fuel ↦ reallocMoving fuel s b.bp size b.size) (a.bp, s'') ∧
        WellFormed s'' blocks'' fl'' ∧ Resizes s blocks b size a s'' blocks'' := by
  have hmax : MAX_HEAP = 20971520 := rfl
  have hmema : a ∈ blocks' := by
    obtain ⟨l, mid, r, rest, -, rfl, -⟩ := hallocates.replaced
    simp
  have hmemb := hallocates.mem hmem hb
  have hapart := hallocates.apart h'.toHeap hmem hb
  have henough := hasize.trans hallocates.enough
  have hsized := (h'.sized b hmemb).2
  have hbounds := h'.bounds hmemb
  have hboundsa := h'.bounds hmema
  have htop := h'.top
  have hne : a ≠ b := by
    rintro rfl
    omega
  have hmoved : ∀ z, ¬InPayload a z →
      s'.mem.copy a.bp s'.mem b.bp (min size (b.size - 8)) z = s'.mem z := by
    intro z hz
    refine Bytes.copy_of_not_mem fun hcopied ↦ hz ?_
    unfold InPayload DSIZE
    omega
  have hfilled := h'.fill hmema hallocates.alloc hmoved
  obtain ⟨s'', blocks'', fl'', hfree, h'', hkept⟩ := mmFree_keeps hfilled hmemb hb
  obtain ⟨hmema', hkepta⟩ := hkept a hmema hne hallocates.alloc
  have hbpne : ∀ c ∈ blocks, c.alloc = true → c.bp ≠ a.bp := by
    intro c hc halloc
    have hapartc := hallocates.apart h'.toHeap hc halloc
    have hsizedc := (h'.sized c (hallocates.mem hc halloc)).2
    omega
  refine ⟨s'', blocks'', fl'', ?_, h'', hmema', hallocates.alloc, henough, fun i hi ↦ ?_,
    fun c hc _ halloc ↦ hbpne c hc halloc, fun c hc hneb halloc ↦ ?_⟩
  · obtain ⟨bound, hbound⟩ := hreturns
    refine ⟨bound, fun fuel hfuel ↦ ?_⟩
    have hcall : mmMalloc fuel s size = some (a.bp, s') := hbound fuel hfuel
    have hbp : a.bp ≠ 0 := by omega
    have hcopy := memcpy_eq s' a.bp b.bp (min size (b.size - 8)) ⟨?_, ?_⟩
      ⟨?_, ?_⟩ (by omega)
    · change reallocMoving fuel s b.bp size b.size = _
      unfold reallocMoving
      dsimp only [Bind.bind]
      rw [hcall, Option.bind_some]
      dsimp only
      rw [if_neg hbp, payload_eq hsized (by omega)]
      have hmin : (if size < b.size - 8 then size else b.size - 8) = min size (b.size - 8) := by
        split_ifs <;> omega
      rw [hmin, hcopy, Option.bind_some, hfree]
      rfl
    all_goals omega
  · rw [Nat.lt_min] at hi
    have hpayload : InPayload a (a.bp + i) := by
      unfold InPayload DSIZE
      omega
    have hold : InPayload b (b.bp + i) := by
      unfold InPayload DSIZE
      omega
    refine (hkepta _ hpayload.inBlock fun hfree ↦ absurd hallocates.alloc (by simp [hfree])).trans ?_
    refine (Bytes.copy_of_mem ⟨Nat.le_add_right _ _, by omega⟩).trans ?_
    rw [Nat.add_sub_cancel_left]
    exact hallocates.kept hmem hb _ hold.inBlock fun hfree ↦ absurd hb (by simp [hfree])
  · have hmemc := hallocates.mem hc halloc
    have hnea : c ≠ a := fun heq ↦ hbpne c hc halloc (congrArg Block.bp heq)
    obtain ⟨hmemc', hkeptc⟩ := hkept c hmemc hneb halloc
    exact ⟨hmemc', ((hallocates.kept hc halloc).trans
      (h'.toTiled.kept_fill hmema hmemc hnea hmoved)).trans hkeptc⟩

/-- What `mm_realloc` makes of the heap: the request is refused and leaves it, or served in a well-formed
one. -/
def Outcome (call : ℕ → Option (ℕ × State)) (s : State) (blocks : List Block) (b : Block) (size : ℕ) : Prop :=
  Returns call (0, s) ∨ ∃ q s' blocks' fl', Returns call (q.bp, s') ∧ WellFormed s' blocks' fl' ∧
    Resizes s blocks b size q s' blocks'

/-- The last part of `mm_realloc`, with a size that can be had. -/
theorem reallocMoving_outcome (h : WellFormed s blocks fl) (hmem : b ∈ blocks) (hb : b.alloc = true)
    (hlarge : 8 < size) (hsize : size ≤ MAX_HEAP) :
    Outcome (fun fuel ↦ reallocMoving fuel s b.bp size b.size) s blocks b size := by
  have hmax : MAX_HEAP = 20971520 := rfl
  have hasize := adjustedSize_spec size (by omega) (by omega)
  rcases mmMalloc_spec h.toHeap (by omega) hsize with ⟨hreturns, -⟩ |
    ⟨-, a, s', blocks', fl', hreturns, hheap, hallocates⟩
  · exact Or.inl (reallocMoving_null hreturns)
  · have henough := hallocates.enough
    have h' := hallocates.wellFormed h hheap (by omega)
    obtain ⟨s'', blocks'', fl'', hcall, h'', hresizes⟩ :=
      reallocMoving_block hmem hb hreturns h' hallocates hasize.2.2.1
    exact Or.inr ⟨a, s'', blocks'', fl'', hcall, h'', hresizes⟩

/-! ### The strategies -/

/-- The block behind cannot be taken. -/
theorem reallocForward_else {fuel : ℕ} (h : Tiled s (l ++ b :: r))
    (hnext : (nextOf s r).alloc = true ∨ b.size + (nextOf s r).size < asize) :
    reallocForward fuel s b.bp size b.size asize = reallocBackward fuel s b.bp size b.size asize := by
  obtain ⟨htag, hsize, -⟩ := h.next
  unfold reallocForward
  dsimp only [Bind.bind]
  rw [h.nextBlkp, Option.bind_some, getAlloc_of_tag hsize htag, Option.bind_some, getSize_of_tag hsize htag,
    Option.bind_some]
  split_ifs with hfree
  · rw [Option.bind_some, if_neg]
    rcases hnext with halloc | hshort
    · simp [halloc] at hfree
    · exact Nat.not_le.mpr hshort
  · rfl

/-- The block before cannot be taken. -/
theorem reallocBackward_else {fuel : ℕ} (h : Tiled s (l ++ b :: r))
    (hprev : (prevOf s l).alloc = true ∨ (prevOf s l).size + b.size < asize) :
    reallocBackward fuel s b.bp size b.size asize = reallocMoving fuel s b.bp size b.size := by
  obtain ⟨htag, hsize, -⟩ := h.prev
  unfold reallocBackward
  dsimp only [Bind.bind]
  rw [h.prevBlkp, Option.bind_some, getAlloc_of_tag hsize htag.header, Option.bind_some,
    getSize_of_tag hsize htag.header, Option.bind_some]
  split_ifs with hfree
  · rw [Option.bind_some, if_neg]
    rcases hprev with halloc | hshort
    · simp [halloc] at hfree
    · exact Nat.not_le.mpr hshort
  · rfl

/-- `mm_realloc` looks at the size of the block first. -/
theorem mmRealloc_eq (h : Tiled s blocks) (hmem : b ∈ blocks) (hpos : 0 < size) (fuel : ℕ) :
    mmRealloc fuel s b.bp size = if align ((size + DSIZE) % sizeMod) ≤ b.size then some (b.bp, s)
      else reallocForward fuel s b.bp size b.size (align ((size + DSIZE) % sizeMod)) := by
  have hbounds := (h.bounds hmem).1
  unfold mmRealloc
  rw [if_neg (by omega), if_neg hpos.ne', h.getSize_hdrp hmem]
  rfl

/-- A neighbour that cannot be taken is allocated or too short. -/
theorem alloc_or_short (h : ¬(N.alloc = false ∧ asize ≤ n)) : N.alloc = true ∨ n < asize := by
  rw [not_and] at h
  cases halloc : N.alloc with
  | true => exact Or.inl rfl
  | false => exact Or.inr (Nat.not_le.mp (h halloc))

/-- `mm_realloc` keeps the block in place, takes a free neighbour, or turns to another block. -/
theorem mmRealloc_cases (h : WellFormed s (l ++ b :: r) fl) (hb : b.alloc = true) (hpos : 0 < size)
    (hlt : size < 2 ^ 64 - 15) :
    (∃ q s' blocks' fl', (∀ fuel, mmRealloc fuel s b.bp size = some (q.bp, s')) ∧
      WellFormed s' blocks' fl' ∧ Resizes s (l ++ b :: r) b size q s' blocks') ∨
    b.size < align ((size + DSIZE) % sizeMod) ∧
      ∀ fuel, mmRealloc fuel s b.bp size = reallocMoving fuel s b.bp size b.size := by
  have hmem : b ∈ l ++ b :: r := by simp
  have hpayload := le_align hlt
  have heq := mmRealloc_eq h.toTiled hmem hpos
  generalize align ((size + DSIZE) % sizeMod) = asize at hpayload heq ⊢
  by_cases hplace : asize ≤ b.size
  · refine Or.inl ⟨b, s, _, fl, fun fuel ↦ (heq fuel).trans (if_pos hplace), h, hmem, hb,
      hpayload.trans hplace, fun i _ ↦ rfl, fun c hc hne _ heq ↦ hne (h.eq_of_bp_eq hc hmem heq),
      fun c hc _ _ ↦ ⟨hc, Kept.refl s c⟩⟩
  replace heq := fun fuel ↦ (heq fuel).trans (if_neg hplace)
  by_cases hforward : (nextOf s r).alloc = false ∧ asize ≤ b.size + (nextOf s r).size
  · obtain ⟨N, r', rfl, hN⟩ := exists_of_nextOf hforward.1
    obtain ⟨q, s', blocks', fl', hcall, h', hresizes⟩ :=
      reallocForward_next h hb hN hpayload hforward.2
    exact Or.inl ⟨q, s', blocks', fl', fun fuel ↦ (heq fuel).trans (hcall fuel), h', hresizes⟩
  replace heq := fun fuel ↦
    (heq fuel).trans (reallocForward_else h.toTiled (alloc_or_short hforward))
  by_cases hbackward : (prevOf s l).alloc = false ∧ asize ≤ (prevOf s l).size + b.size
  · obtain ⟨l', P, rfl, hP⟩ := exists_of_prevOf hbackward.1
    have hprevOf : prevOf s (l' ++ [P]) = P := List.getLastD_concat
    rw [hprevOf] at hbackward
    rw [List.append_assoc, List.singleton_append] at h ⊢
    obtain ⟨q, s', blocks', fl', hcall, h', hresizes⟩ :=
      reallocBackward_prev h hb hP hpayload hbackward.2
    exact Or.inl ⟨q, s', blocks', fl', fun fuel ↦ (heq fuel).trans (hcall fuel), h', hresizes⟩
  · exact Or.inr ⟨Nat.not_le.mp hplace, fun fuel ↦
      (heq fuel).trans (reallocBackward_else h.toTiled (alloc_or_short hbackward))⟩

/-! ### Every size -/

/-- `mm_realloc` returns no block where `mm_malloc` returns `NULL`, and one where it does not. -/
theorem reallocMoving_ne_zero {fuel : ℕ} (h : Ensures (mmMalloc fuel s size) fun r ↦ r.1 ≠ 0) :
    Ensures (reallocMoving fuel s b.bp size b.size) fun r ↦ r.1 ≠ 0 := by
  unfold reallocMoving
  refine h.bind fun ⟨newptr, s'⟩ hnew ↦ ?_
  dsimp only at hnew ⊢
  rw [if_neg hnew]
  exact Ensures.skip fun _ ↦ Ensures.skip fun _ ↦ Ensures.pure hnew

/-- A payload that is larger than the memory of `mem_init`. -/
theorem not_resizes (h : Tiled s' blocks') (hlarge : MAX_HEAP < size) :
    ¬Resizes s blocks b size q s' blocks' := by
  intro hresizes
  have hsize := h.size_le hresizes.mem
  have hpayload := hresizes.payload
  omega

theorem mmRealloc_small (h : WellFormed s (l ++ b :: r) fl) (hb : b.alloc = true) (hpos : 0 < size)
    (hsize : size ≤ MAX_HEAP) :
    Outcome (fun fuel ↦ mmRealloc fuel s b.bp size) s (l ++ b :: r) b size := by
  have hmax : MAX_HEAP = 20971520 := rfl
  have hmem : b ∈ l ++ b :: r := by simp
  rcases mmRealloc_cases h hb hpos (by omega) with ⟨q, s', blocks', fl', hcall, h', hresizes⟩ | ⟨hlt, hcall⟩
  · exact Or.inr ⟨q, s', blocks', fl', ⟨0, fun fuel _ ↦ hcall fuel⟩, h', hresizes⟩
  · have hminimum := h.minimum b hmem
    have hlarge : 8 < size := by
      unfold align DSIZE sizeMod at hlt
      omega
    have houtcome := reallocMoving_outcome h hmem hb hlarge hsize
    rwa [← funext hcall] at houtcome

theorem mmRealloc_large (h : WellFormed s (l ++ b :: r) fl) (hb : b.alloc = true) (hlarge : MAX_HEAP < size)
    (hlt : size < 2 ^ 64 - 15) :
    Outcome (fun fuel ↦ mmRealloc fuel s b.bp size) s (l ++ b :: r) b size ↔
      Refused s (demand (adjustedSize size)) := by
  have hmem : b ∈ l ++ b :: r := by simp
  have hasize := adjustedSize_spec size (by omega) hlt
  have hnone : ¬HasFit (l ++ b :: r) (adjustedSize size) := by
    rintro ⟨c, hc, -, hle⟩
    have hsize := h.size_le hc
    omega
  rcases mmRealloc_cases h hb (by omega) hlt with ⟨q, s', blocks', fl', -, h', hresizes⟩ | ⟨-, hcall⟩
  · exact absurd hresizes (not_resizes h'.toTiled hlarge)
  rw [funext hcall]
  obtain ⟨bound, hnull⟩ := mmMalloc_null_iff h.toHeap (show 0 < size by omega)
  constructor
  · rintro (⟨bound', hreturns⟩ | ⟨q, s', blocks', fl', -, h', hresizes⟩)
    · by_contra hgranted
      have hne := (hnull (bound + bound' + 1) (by omega)).2 fun hno ↦ hgranted hno.2
      exact reallocMoving_ne_zero hne _ (hreturns (bound + bound' + 1) (by omega)) rfl
    · exact absurd hresizes (not_resizes h'.toTiled hlarge)
  · exact fun hrefused ↦ Or.inl (reallocMoving_null ⟨bound, fun fuel hfuel ↦
      (hnull fuel hfuel).1 ⟨hnone, hrefused⟩⟩)

/-- `mm_realloc` with a size for which no request wraps. -/
theorem mmRealloc_outcome (h : WellFormed s blocks fl) (hmem : b ∈ blocks) (hb : b.alloc = true)
    (hpos : 0 < size) (hlt : size < 2 ^ 64 - 15)
    (hfine : MAX_HEAP < size → Refused s (demand (adjustedSize size))) :
    Outcome (fun fuel ↦ mmRealloc fuel s b.bp size) s blocks b size := by
  obtain ⟨l, r, rfl⟩ := List.append_of_mem hmem
  by_cases hlarge : MAX_HEAP < size
  · exact (mmRealloc_large h hb hlarge hlt).mpr (hfine hlarge)
  · exact mmRealloc_small h hb hpos (Nat.not_lt.mp hlarge)

/-- `mm_realloc` keeps the data and a well-formed heap, except where `mem_sbrk` grants a request that does
not fit into an `int`. -/
theorem mmRealloc_keeps_iff (h : WellFormed s (l ++ b :: r) fl) (hb : b.alloc = true) (hpos : 0 < size)
    (hint : size < 2 ^ 31) :
    Outcome (fun fuel ↦ mmRealloc fuel s b.bp size) s (l ++ b :: r) b size ↔
      (MAX_HEAP < size → Refused s (demand (adjustedSize size))) :=
  ⟨fun houtcome hlarge ↦ (mmRealloc_large h hb hlarge (by omega)).mp houtcome,
    mmRealloc_outcome h (by simp) hb hpos (by omega)⟩

/-- In the heap with the hole the block of 40 bytes moves into it. -/
theorem mmRealloc_keeps_hole :
    Outcome (fun fuel ↦ mmRealloc fuel hole 48 48) hole ([⟨24, 24, false⟩] ++ ⟨48, 40, true⟩ :: [])
        ⟨48, 40, true⟩ 48 ↔
      (MAX_HEAP < 48 → Refused hole (demand (adjustedSize 48))) :=
  mmRealloc_keeps_iff (l := [⟨24, 24, false⟩]) (b := ⟨48, 40, true⟩) (r := []) wellFormed_hole rfl
    (show 0 < 48 by decide) (by decide)

/-- A request of 2061584296 bytes asks `mem_sbrk` for 8. -/
theorem not_mmRealloc_keeps : ¬∀ (s : State) (l : List Block) (b : Block) (r : List Block) (fl : List ℕ)
    (size : ℕ), WellFormed s (l ++ b :: r) fl → b.alloc = true → 0 < size → size < 2 ^ 31 →
    Outcome (fun fuel ↦ mmRealloc fuel s b.bp size) s (l ++ b :: r) b size := by
  intro hclaim
  have hrefused := (mmRealloc_large wellFormed_hole rfl (by decide) (by decide)).mp
    (hclaim hole _ _ _ _ 2061584296 wellFormed_hole rfl (by decide) (by decide))
  have hwrap : int32 (demand (adjustedSize 2061584296)) = 8 := by decide
  unfold Refused at hrefused
  rw [hwrap] at hrefused
  revert hrefused
  decide

/-! ### The sizes of the blocks -/

/-- A call refuses the request and leaves the state, or returns a block of a heap with room for the
payload. -/
def Grants (call : ℕ → Option (ℕ × State)) (s : State) (size : ℕ) : Prop :=
  Returns call (0, s) ∨ ∃ q s' blocks' fl', Returns call (q.bp, s') ∧ Heap s' blocks' fl' ∧
    q ∈ blocks' ∧ q.alloc = true ∧ size + 8 ≤ q.size

variable {call : ℕ → Option (ℕ × State)}

theorem Outcome.grants (h : Outcome call s blocks b size) : Grants call s size := by
  rcases h with hnull | ⟨q, s', blocks', fl', hcall, h', hresizes⟩
  · exact Or.inl hnull
  · exact Or.inr ⟨q, s', blocks', fl', hcall, h'.toHeap, hresizes.mem, hresizes.alloc, hresizes.payload⟩

/-- There is no block for a payload that is larger than the memory. -/
theorem grants_large (hlarge : MAX_HEAP < size) : Grants call s size ↔ Returns call (0, s) := by
  refine ⟨fun hgrants ↦ ?_, Or.inl⟩
  rcases hgrants with hnull | ⟨q, s', blocks', fl', -, h', hmem, -, hpayload⟩
  · exact hnull
  · have hsize := h'.size_le hmem
    omega

theorem mmMalloc_returns_null_iff (h : Heap s blocks fl) (hpos : 0 < size) :
    Returns (fun fuel ↦ mmMalloc fuel s size) (0, s) ↔ NoMemory s blocks (adjustedSize size) := by
  obtain ⟨bound, hnull⟩ := mmMalloc_null_iff h hpos
  refine ⟨fun ⟨bound', hreturns⟩ ↦ ?_, fun hno ↦ ⟨bound, fun fuel hfuel ↦ (hnull fuel hfuel).1 hno⟩⟩
  by_contra hmemory
  exact (hnull (bound + bound' + 1) (by omega)).2 hmemory _ (hreturns (bound + bound' + 1) (by omega)) rfl

theorem mmMalloc_grants_small (h : Heap s blocks fl) (hpos : 0 < size) (hsize : size ≤ MAX_HEAP) :
    Grants (fun fuel ↦ mmMalloc fuel s size) s size := by
  have hmax : MAX_HEAP = 20971520 := rfl
  have hasize := adjustedSize_spec size hpos (by omega)
  rcases mmMalloc_spec h hpos hsize with ⟨hreturns, -⟩ |
    ⟨-, a, s', blocks', fl', hreturns, hheap, hallocates⟩
  · exact Or.inl hreturns
  · have hserves := hallocates.serves hasize.2.2.1
    exact Or.inr ⟨a, s', blocks', fl', hreturns, hheap, hserves.mem, hserves.alloc, hserves.payload⟩

/-- `ALIGN` wraps, and the block seems to be large enough. -/
theorem mmRealloc_wraps (h : WellFormed s blocks fl) (hmem : b ∈ blocks) (hwraps : 2 ^ 64 - 15 ≤ size)
    (hlt : size < 2 ^ 64) (fuel : ℕ) : mmRealloc fuel s b.bp size = some (b.bp, s) := by
  have hminimum := h.minimum b hmem
  rw [mmRealloc_eq h.toTiled hmem (by omega), if_pos]
  unfold align DSIZE sizeMod
  omega

/-- The sizes for which both `mm_malloc` and `mm_realloc` refuse the request or return a block with room
for the payload. -/
theorem sizes_granted_iff (h : WellFormed s (l ++ b :: r) fl) (hb : b.alloc = true) (hpos : 0 < size)
    (hlt : size < 2 ^ 64) :
    (Grants (fun fuel ↦ mmMalloc fuel s size) s size ∧
        Grants (fun fuel ↦ mmRealloc fuel s b.bp size) s size) ↔
      size ≤ MAX_HEAP ∨ size < 2 ^ 64 - 15 ∧ Refused s (demand (adjustedSize size)) := by
  have hmax : MAX_HEAP = 20971520 := rfl
  have hmem : b ∈ l ++ b :: r := by simp
  by_cases hsize : size ≤ MAX_HEAP
  · exact iff_of_true ⟨mmMalloc_grants_small h.toHeap hpos hsize,
      (mmRealloc_small h hb hpos hsize).grants⟩ (Or.inl hsize)
  have hlarge := Nat.not_le.mp hsize
  rw [grants_large hlarge, grants_large hlarge, or_iff_right hsize]
  by_cases hwraps : 2 ^ 64 - 15 ≤ size
  · refine iff_of_false (fun hboth ↦ ?_) (by omega)
    have hreturns : Returns (fun fuel ↦ mmRealloc fuel s b.bp size) (b.bp, s) :=
      ⟨0, fun fuel _ ↦ mmRealloc_wraps h hmem hwraps hlt fuel⟩
    have hbounds := (h.bounds hmem).1
    have hzero := (Prod.mk.inj (hreturns.unique hboth.2)).1
    omega
  · have hmoderate := Nat.not_le.mp hwraps
    constructor
    · exact fun hboth ↦ ⟨hmoderate, ((mmMalloc_returns_null_iff h.toHeap hpos).mp hboth.1).2⟩
    · rintro ⟨-, hrefused⟩
      have hrealloc := ((mmRealloc_large h hb hlarge hmoderate).mpr hrefused).grants
      have hmalloc : NoMemory s (l ++ b :: r) (adjustedSize size) := by
        refine ⟨?_, hrefused⟩
        rintro ⟨c, hc, -, hle⟩
        have hasize := (adjustedSize_spec size hpos hmoderate).2.2.1
        have hc' := h.size_le hc
        omega
      exact ⟨(mmMalloc_returns_null_iff h.toHeap hpos).mpr hmalloc, (grants_large hlarge).mp hrealloc⟩

theorem sizes_granted_hole :
    (Grants (fun fuel ↦ mmMalloc fuel hole 48) hole 48 ∧
        Grants (fun fuel ↦ mmRealloc fuel hole 48 48) hole 48) ↔
      48 ≤ MAX_HEAP ∨ 48 < 2 ^ 64 - 15 ∧ Refused hole (demand (adjustedSize 48)) :=
  sizes_granted_iff (l := [⟨24, 24, false⟩]) (b := ⟨48, 40, true⟩) (r := []) wellFormed_hole rfl
    (show 0 < 48 by decide) (by decide)

/-- For the largest size `mm_realloc` returns the block of 40 bytes. -/
theorem not_sizes_granted : ¬∀ (s : State) (l : List Block) (b : Block) (r : List Block) (fl : List ℕ)
    (size : ℕ), WellFormed s (l ++ b :: r) fl → b.alloc = true → 0 < size → size < 2 ^ 64 →
    Grants (fun fuel ↦ mmMalloc fuel s size) s size ∧
      Grants (fun fuel ↦ mmRealloc fuel s b.bp size) s size := by
  intro hclaim
  have hgrants := (hclaim hole _ _ _ _ (2 ^ 64 - 1) wellFormed_hole rfl (by decide) (by decide)).2
  have hreturns : Returns (fun fuel ↦ mmRealloc fuel hole 48 (2 ^ 64 - 1)) (48, hole) :=
    ⟨0, fun fuel _ ↦ mmRealloc_wraps wellFormed_hole (b := ⟨48, 40, true⟩) (by simp) (by decide)
      (by decide) fuel⟩
  have hnull := (grants_large (by decide)).mp hgrants
  exact absurd (Prod.mk.inj (hreturns.unique hnull)).1 (by decide)

end Jungle.MallocLab
