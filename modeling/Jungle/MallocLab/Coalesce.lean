import Jungle.MallocLab.Blocks

/-!
# Merging free blocks

`Heap s blocks fl` is a heap at rest: the blocks tile it, no two free ones are adjacent, and the free list
holds the free ones, which have room for their links. `coalesce` takes a block that is tagged as free
but not listed yet, whose neighbours are as in such a heap, and makes it one: the block is merged with
the neighbours that are free, and the merged block is the first of the list.
-/

set_option autoImplicit false
set_option relaxedAutoImplicit false

namespace Jungle.MallocLab

open Jungle.Lib

/-- The free list holds the free blocks, which have room for the links. -/
structure Listed (s : State) (blocks : List Block) (fl : List ℕ) : Prop where
  linked : Linked s fl
  mem_iff : ∀ x, x ∈ fl ↔ ∃ b ∈ blocks, b.alloc = false ∧ b.bp = x
  room : ∀ b ∈ blocks, b.alloc = false → 24 ≤ b.size

/-- No two adjacent blocks are free. -/
def Settled (blocks : List Block) : Prop :=
  blocks.IsChain fun b c ↦ b.alloc = true ∨ c.alloc = true

/-- A heap between two calls. -/
structure Heap (s : State) (blocks : List Block) (fl : List ℕ) : Prop extends
    Tiled s blocks, Listed s blocks fl where
  settled : Settled blocks

/-- The byte is one of the block, with its header and its footer. -/
def InBlock (b : Block) (x : ℕ) : Prop := b.bp ≤ x + WSIZE ∧ x + WSIZE < b.bp + b.size

variable {s s' : State} {blocks l r : List Block} {b c q P N : Block} {fl fl' : List ℕ}
  {x y z p v n : ℕ} {m : Bytes}

/-! ### Lists of free blocks -/

theorem Listed.roomy (h : Listed s blocks fl) : Roomy blocks fl := by
  intro c hc
  obtain ⟨b, hb, hfree, hbp⟩ := (h.mem_iff c).mp hc
  exact ⟨b, hb, hbp, h.room b hb hfree⟩

theorem Roomy.mono {blocks' : List Block} (h : Roomy blocks fl) (hsub : blocks ⊆ blocks') :
    Roomy blocks' fl := by
  intro c hc
  obtain ⟨b, hb, hbp⟩ := h c hc
  exact ⟨b, hsub hb, hbp⟩

/-- A block that is not free is not listed. -/
theorem Listed.insert_alloc (h : Listed s (l ++ r) fl) (hb : b.alloc = true) :
    Listed s (l ++ b :: r) fl := by
  have hmem : ∀ c, c.alloc = false → (c ∈ l ++ b :: r ↔ c ∈ l ++ r) := by
    intro c hc
    have hne : c ≠ b := fun heq ↦ by
      rw [heq, hb] at hc
      exact Bool.noConfusion hc
    simp [hne]
  refine ⟨h.linked, fun x ↦ (h.mem_iff x).trans ?_, fun c hc hfree ↦ ?_⟩
  · refine exists_congr fun c ↦ ?_
    refine ⟨fun ⟨hc, hfree, hx⟩ ↦ ⟨(hmem c hfree).mpr hc, hfree, hx⟩,
      fun ⟨hc, hfree, hx⟩ ↦ ⟨(hmem c hfree).mp hc, hfree, hx⟩⟩
  · exact h.room c ((hmem c hfree).mp hc) hfree

theorem Listed.erase_alloc (h : Listed s (l ++ b :: r) fl) (hb : b.alloc = true) :
    Listed s (l ++ r) fl := by
  have hsub : l ++ r ⊆ l ++ b :: r := by
    intro c hc
    rcases List.mem_append.mp hc with hc | hc <;> simp [hc]
  refine ⟨h.linked, fun x ↦ (h.mem_iff x).trans ?_, fun c hc ↦ h.room c (hsub hc)⟩
  refine exists_congr fun c ↦ ⟨fun ⟨hc, hfree, hx⟩ ↦ ⟨?_, hfree, hx⟩,
    fun ⟨hc, hfree, hx⟩ ↦ ⟨hsub hc, hfree, hx⟩⟩
  rcases List.mem_append.mp hc with hc | hc
  · exact List.mem_append_left _ hc
  · rcases List.mem_cons.mp hc with rfl | hc
    · rw [hb] at hfree
      exact Bool.noConfusion hfree
    · exact List.mem_append_right _ hc

/-- The positions of the blocks differ. -/
theorem Tiled.nodup_bp (h : Tiled s blocks) : (blocks.map Block.bp).Nodup :=
  h.tiles.nodup_pos h.size_pos

/-- The other blocks are elsewhere. -/
theorem Tiled.bp_ne (h : Tiled s blocks) (hsub : (l ++ q :: r).Sublist blocks) (hc : c ∈ l ++ r) :
    c.bp ≠ q.bp := by
  have hnodup : ((l ++ q :: r).map Block.bp).Nodup := h.nodup_bp.sublist (hsub.map Block.bp)
  have hmiddle : (l ++ q :: r).Perm (q :: (l ++ r)) := List.perm_middle
  have hperm := hmiddle.map Block.bp
  have hcons := List.nodup_cons.mp (hperm.nodup_iff.mp hnodup)
  exact fun heq ↦ hcons.1 (heq ▸ List.mem_map_of_mem hc)

/-- `remove_from_free_list` takes a free block out of the list. -/
theorem Tiled.take (h : Tiled s blocks) (hsub : (l ++ N :: r).Sublist blocks)
    (hlisted : Listed s (l ++ N :: r) fl) (hN : N.alloc = false) : ∃ m p,
      removeFromFreeList s N.bp = some { s with mem := m, freeListp := p } ∧
      Tiled { s with mem := m, freeListp := p } blocks ∧
      Listed { s with mem := m, freeListp := p } (l ++ r) (fl.erase N.bp) ∧
      ∀ z, ¬LinksOf fl z → m z = s.mem z := by
  have hmemN : N ∈ l ++ N :: r := by simp
  have hx : N.bp ∈ fl := (hlisted.mem_iff N.bp).mpr ⟨N, hmemN, hN, rfl⟩
  obtain ⟨m, p, heq, htiled, hlinked, hframe⟩ :=
    h.remove hlisted.linked (hlisted.roomy.mono hsub.subset) hx
  have hne : ∀ b ∈ l ++ r, b.bp ≠ N.bp := fun b hb ↦ h.bp_ne hsub hb
  have hsub' : ∀ b, b ∈ l ++ r → b ∈ l ++ N :: r := by
    intro c hc
    rcases List.mem_append.mp hc with hc | hc <;> simp [hc]
  refine ⟨m, p, heq, htiled, ⟨hlinked, fun x ↦ ?_, fun b hb ↦ hlisted.room b (hsub' b hb)⟩, hframe⟩
  rw [hlisted.linked.nodup.mem_erase_iff, hlisted.mem_iff]
  refine ⟨fun ⟨hxN, b, hb, hfree, hbx⟩ ↦ ⟨b, ?_, hfree, hbx⟩,
    fun ⟨b, hb, hfree, hbx⟩ ↦ ⟨hbx ▸ hne b hb, b, hsub' b hb, hfree, hbx⟩⟩
  rcases List.mem_append.mp hb with hb | hb
  · exact List.mem_append_left _ hb
  · rcases List.mem_cons.mp hb with rfl | hb
    · exact absurd hbx.symm hxN
    · exact List.mem_append_right _ hb

/-- Tagging a block leaves the free list alone. -/
theorem Listed.retag (h : Listed s (l ++ r) fl)
    (htiled : Tiled { s with mem := tagAt s.mem q.bp q.size q.tag } (l ++ [q] ++ r)) :
    Listed { s with mem := tagAt s.mem q.bp q.size q.tag } (l ++ r) fl := by
  have hq : q ∈ l ++ [q] ++ r := by simp
  refine ⟨htiled.linked_retag hq h.linked (h.roomy.mono ?_), h.mem_iff, h.room⟩
  intro c hc
  rcases List.mem_append.mp hc with hc | hc <;> simp [hc]

/-- The free list does not depend on the bytes of a block that is not listed. -/
theorem Listed.frame (h : Listed s (l ++ r) fl) (htiled : Tiled s (l ++ q :: r))
    (hframe : ∀ z, ¬InBlock q z → m z = s.mem z) : Listed { s with mem := m } (l ++ r) fl := by
  refine ⟨h.linked.frame (fun x ⟨c, hc, hcx⟩ ↦ hframe x ?_) s.brk, h.mem_iff, h.room⟩
  obtain ⟨d, hd, rfl, hroom⟩ := h.roomy c hc
  have hd' : d ∈ l ++ q :: r := by
    rcases List.mem_append.mp hd with hd | hd <;> simp [hd]
  have hq : q ∈ l ++ q :: r := by simp
  rcases htiled.eq_or_apart hd' hq with heq | hapart
  · exact absurd (congrArg Block.bp heq) (htiled.bp_ne (List.Sublist.refl _) hd)
  · unfold InBlock WSIZE
    omega

/-! ### The four cases -/

/-- Blocks on both sides of a free one. -/
theorem Settled.join (hl : Settled l) (hr : Settled r) (hlast : ∀ c ∈ l.getLast?, c.alloc = true)
    (hhead : ∀ c ∈ r.head?, c.alloc = true) : Settled (l ++ q :: r) := by
  refine List.isChain_append.mpr ⟨hl, List.isChain_cons.mpr ⟨fun c hc ↦ Or.inr (hhead c hc), hr⟩, ?_⟩
  intro c hc d hd
  exact Or.inl (hlast c hc)

theorem Settled.last_alloc (h : Settled (l ++ [P])) (hP : P.alloc = false) :
    ∀ c ∈ l.getLast?, c.alloc = true := by
  intro c hc
  have hchain := (List.isChain_append.mp h).2.2 c hc P rfl
  exact hchain.resolve_right (by simp [hP])

theorem Settled.head_alloc (h : Settled (N :: r)) (hN : N.alloc = false) :
    ∀ c ∈ r.head?, c.alloc = true := by
  intro c hc
  have hchain := (List.isChain_cons.mp h).1 c hc
  exact hchain.resolve_left (by simp [hN])

theorem last_alloc_of_prevOf (h : (prevOf s l).alloc = true) :
    ∀ c ∈ l.getLast?, c.alloc = true := by
  intro c hc
  rwa [prevOf, List.getLastD_eq_getLast?, hc, Option.getD_some] at h

theorem head_alloc_of_nextOf (h : (nextOf s r).alloc = true) :
    ∀ c ∈ r.head?, c.alloc = true := by
  intro c hc
  rwa [nextOf, List.headD_eq_head?_getD, hc, Option.getD_some] at h

/-- What `coalesce` makes of the heap: the block between `l` and `r` is merged and listed first. -/
def CoalescesTo (s : State) (bp : ℕ) (q : Block) (l r : List Block) (fl fl' : List ℕ) : Prop :=
  ∃ m, coalesce s bp = some (q.bp, { s with mem := m, freeListp := q.bp }) ∧
    Heap { s with mem := m, freeListp := q.bp } (l ++ q :: r) (q.bp :: fl') ∧
    ∀ z, ¬InBlock q z → ¬LinksOf fl z → m z = s.mem z

/-- `add_to_free_list` completes a heap. -/
theorem Tiled.complete (h : Tiled s (l ++ q :: r)) (hlisted : Listed s (l ++ r) fl)
    (hq : q.alloc = false) (hroom : 24 ≤ q.size) (hsettled : Settled (l ++ q :: r)) : ∃ m,
      addToFreeList s q.bp = some { s with mem := m, freeListp := q.bp } ∧
      Heap { s with mem := m, freeListp := q.bp } (l ++ q :: r) (q.bp :: fl) ∧
      ∀ z, ¬InBlock q z → ¬LinksOf fl z → m z = s.mem z := by
  have hsub : ∀ b, b ∈ l ++ r → b ∈ l ++ q :: r := by
    intro c hc
    rcases List.mem_append.mp hc with hc | hc <;> simp [hc]
  have hmemq : q ∈ l ++ q :: r := by simp
  have hroomy : Roomy (l ++ q :: r) (q.bp :: fl) := by
    intro c hc
    rcases List.mem_cons.mp hc with rfl | hc
    · exact ⟨q, hmemq, rfl, hroom⟩
    · exact hlisted.roomy.mono hsub c hc
  have hnot : q.bp ∉ fl := by
    intro hmem
    obtain ⟨b, hb, hfree, hbp⟩ := (hlisted.mem_iff q.bp).mp hmem
    exact h.bp_ne (List.Sublist.refl _) hb hbp
  obtain ⟨m, heq, htiled, hlinked, hframe⟩ := h.push hlisted.linked hroomy hnot
  refine ⟨m, heq, ⟨htiled, ⟨hlinked, fun x ↦ ?_, fun b hb hfree ↦ ?_⟩, hsettled⟩, fun z hz hlinks ↦ ?_⟩
  · rw [List.mem_cons, hlisted.mem_iff]
    refine ⟨?_, fun ⟨b, hb, hfree, hbx⟩ ↦ ?_⟩
    · rintro (rfl | ⟨b, hb, hfree, hbx⟩)
      · exact ⟨q, hmemq, hq, rfl⟩
      · exact ⟨b, hsub b hb, hfree, hbx⟩
    · rcases List.mem_append.mp hb with hb | hb
      · exact Or.inr ⟨b, List.mem_append_left _ hb, hfree, hbx⟩
      · rcases List.mem_cons.mp hb with rfl | hb
        · exact Or.inl hbx.symm
        · exact Or.inr ⟨b, List.mem_append_right _ hb, hfree, hbx⟩
  · rcases List.mem_append.mp hb with hb | hb
    · exact hlisted.room b (List.mem_append_left _ hb) hfree
    · rcases List.mem_cons.mp hb with rfl | hb
      · exact hroom
      · exact hlisted.room b (List.mem_append_right _ hb) hfree
  · refine hframe z fun ⟨c, hc, hcz⟩ ↦ ?_
    rcases List.mem_cons.mp hc with rfl | hc
    · refine hz ?_
      unfold InBlock WSIZE
      omega
    · exact hlinks ⟨c, hc, hcz⟩

/-- What the allocation bits of the neighbours are. -/
theorem Tiled.getAlloc_prev (h : Tiled s (l ++ b :: r)) :
    getAlloc s ((prevOf s l).bp + (prevOf s l).size - DSIZE) = some (prevOf s l).alloc :=
  getAlloc_of_tag h.prev.2.1 h.prev.1.footer

theorem Tiled.ftrp_prev (h : Tiled s (l ++ b :: r)) : MallocLab.ftrp s (prevOf s l).bp =
    some ((prevOf s l).bp + (prevOf s l).size - DSIZE) :=
  ftrp_of_tag h.prev.2.1 h.prev.1.header

theorem Tiled.getAlloc_next (h : Tiled s (l ++ b :: r)) :
    getAlloc s (hdrp (nextOf s r).bp) = some (nextOf s r).alloc :=
  getAlloc_of_tag h.next.2.1 h.next.1

/-- Both neighbours are allocated. -/
theorem coalesce_alone (h : Tiled s (l ++ b :: r)) (hlisted : Listed s (l ++ r) fl)
    (hb : b.alloc = false) (hroom : 24 ≤ b.size) (hl : Settled l) (hr : Settled r)
    (hprev : (prevOf s l).alloc = true) (hnext : (nextOf s r).alloc = true) :
    CoalescesTo s b.bp b l r fl fl := by
  have hmem : b ∈ l ++ b :: r := by simp
  have hsettled : Settled (l ++ b :: r) :=
    hl.join hr (last_alloc_of_prevOf hprev) (head_alloc_of_nextOf hnext)
  obtain ⟨m, heq, hheap, hframe⟩ := h.complete hlisted hb hroom hsettled
  refine ⟨m, ?_, hheap, hframe⟩
  unfold coalesce
  dsimp only [Bind.bind]
  rw [h.prevBlkp, Option.bind_some, h.ftrp_prev, Option.bind_some, h.getAlloc_prev,
    Option.bind_some, h.nextBlkp, Option.bind_some, h.getAlloc_next, Option.bind_some,
    h.getSize_hdrp hmem, Option.bind_some, hprev, hnext, if_pos (Bool.and_self true), heq,
    Option.bind_some]
  rfl

theorem OnTag.inBlock (h : OnTag q z) (hsize : DSIZE ≤ q.size) : InBlock q z := by
  unfold OnTag InBlock WSIZE DSIZE at *
  omega

/-- Taking a block out of the list, tagging a block and putting it in front change no more than the
block and links of the list. -/
theorem frame_trans {m₁ m₂ : Bytes} (hbp : WSIZE ≤ q.bp) (hsize : DSIZE ≤ q.size) (hsub : fl' ⊆ fl)
    (hfirst : ∀ z, ¬LinksOf fl z → m₁ z = s.mem z)
    (hlast : ∀ z, ¬InBlock q z → ¬LinksOf fl' z → m₂ z = tagAt m₁ q.bp q.size v z)
    (hz : ¬InBlock q z) (hlinks : ¬LinksOf fl z) : m₂ z = s.mem z := by
  rw [hlast z hz fun hlinks' ↦ hlinks (hlinks'.mono hsub),
    tagAt_frame hbp hsize fun htag ↦ hz (htag.inBlock hsize), hfirst z hlinks]

/-- The next block is free. -/
theorem coalesce_next (h : Tiled s (l ++ b :: N :: r)) (hlisted : Listed s (l ++ N :: r) fl)
    (hN : N.alloc = false) (hl : Settled l) (hr : Settled (N :: r))
    (hprev : (prevOf s l).alloc = true) :
    CoalescesTo s b.bp ⟨b.bp, b.size + N.size, false⟩ l r fl (fl.erase N.bp) := by
  have hmem : b ∈ l ++ b :: N :: r := by simp
  have hmemN : N ∈ l ++ b :: N :: r := by simp
  have hsizeb := h.sized b hmem
  have hsizeN := h.sized N hmemN
  have hNbp : N.bp = b.bp + b.size := h.next.2.2
  obtain ⟨m, p, heq, htiled, hlisted', hframe⟩ := h.take (by simp) hlisted hN
  have hsized : (b.size + N.size) % 8 = 0 ∧ 16 ≤ b.size + N.size := by omega
  have hmid : Tiles Block.bp Block.size b.bp [b, N] (b.bp + (b.size + N.size)) :=
    ⟨rfl, hNbp, Nat.add_assoc _ _ _⟩
  have hsplit : l ++ b :: N :: r = l ++ [b, N] ++ r := by simp
  have htiled' := hsplit ▸ htiled
  have hretag := htiled'.retag (q := ⟨b.bp, b.size + N.size, false⟩) hmid (by simp) hsized
  have hlisted'' := hlisted'.retag hretag
  have hsettled : Settled (l ++ ⟨b.bp, b.size + N.size, false⟩ :: r) :=
    hl.join (List.isChain_cons.mp hr).2 (last_alloc_of_prevOf hprev) (hr.head_alloc hN)
  rw [List.append_assoc, List.singleton_append] at hretag
  obtain ⟨m', heq', hheap, hframe'⟩ := hretag.complete hlisted'' rfl (show 24 ≤ b.size + N.size by omega)
    hsettled
  refine ⟨m', ?_, hheap, fun z hz hlinks ↦ ?_⟩
  · have hnextBlkp : nextBlkp s b.bp = some N.bp := h.nextBlkp
    have hnextAlloc : getAlloc s (hdrp N.bp) = some N.alloc := h.getAlloc_next
    have hnextBlkp' : nextBlkp { s with mem := m, freeListp := p } b.bp = some N.bp :=
      htiled.nextBlkp
    unfold coalesce
    dsimp only [Bind.bind]
    rw [h.prevBlkp, Option.bind_some, h.ftrp_prev, Option.bind_some, h.getAlloc_prev,
      Option.bind_some, hnextBlkp, Option.bind_some, hnextAlloc, Option.bind_some,
      h.getSize_hdrp hmem, Option.bind_some, hprev, hN, if_neg (by decide), if_pos (by decide),
      Option.bind_some, heq, Option.bind_some, hnextBlkp', Option.bind_some,
      htiled.getSize_hdrp hmemN, Option.bind_some]
    refine (htiled'.putTags (q := ⟨b.bp, b.size + N.size, false⟩) hmid (by simp) hsized _).trans ?_
    exact congrArg (fun o ↦ Option.bind o fun s ↦ some (b.bp, s)) heq'
  · have hbounds := (h.bounds hmem).1
    refine frame_trans ?_ ?_ (List.erase_subset) hframe hframe' hz hlinks
    · change 4 ≤ b.bp
      omega
    · change 8 ≤ b.size + N.size
      omega

/-- The words of `p` decide where the previous block is. -/
theorem prevBlkp_congr (h : get s' (x - DSIZE) = get s (x - DSIZE)) :
    prevBlkp s' x = prevBlkp s x := by
  rw [prevBlkp, prevBlkp, getSize, getSize, h]

theorem nextBlkp_congr (h : get s' (hdrp x) = get s (hdrp x)) : nextBlkp s' x = nextBlkp s x := by
  rw [nextBlkp, nextBlkp, getSize, getSize, ← hdrp, h]

theorem ftrp_congr (h : get s' (hdrp x) = get s (hdrp x)) : ftrp s' x = ftrp s x := by
  rw [ftrp, ftrp, getSize, getSize, h]

/-- Tagging a block leaves other words. -/
theorem get_tagAt_of_apart {size : ℕ} (hheader : y + WSIZE ≤ hdrp x ∨ hdrp x + WSIZE ≤ y)
    (hfooter : y + WSIZE ≤ x + size - DSIZE ∨ x + size - DSIZE + WSIZE ≤ y) :
    get { s with mem := tagAt s.mem x size v } y = get s y :=
  (get_put_of_apart (s := { s with mem := s.mem.store (hdrp x) WSIZE v }) hfooter).trans
    (get_put_of_apart hheader)

/-- Tagging the block that leads up to `y`, where it is looked up before each step. -/
theorem putTags_prev {Result : Type} (h : Writable s x n) (hv : v / 8 * 8 = n) (hlt : v < 2 ^ 32)
    (hprev : prevBlkp s y = some x) (hheader : hdrp x + WSIZE ≤ y - DSIZE)
    (hfooter : y - DSIZE + WSIZE ≤ x + n - DSIZE) (k : ℕ → State → Option Result) :
    ((prevBlkp s y).bind fun x ↦ (put s (hdrp x) v).bind fun s ↦ (prevBlkp s y).bind fun x ↦
        (ftrp s x).bind fun p ↦ (put s p v).bind fun s ↦ (prevBlkp s y).bind fun x ↦ k x s) =
      k x { s with mem := tagAt s.mem x n v } := by
  have hprev' : prevBlkp { s with mem := s.mem.store (hdrp x) WSIZE v } y = some x :=
    (prevBlkp_congr (get_put_of_apart (Or.inr hheader))).trans hprev
  have hprev'' : prevBlkp { s with mem := tagAt s.mem x n v } y = some x :=
    (prevBlkp_congr (get_tagAt_of_apart (Or.inr hheader) (Or.inl hfooter))).trans hprev
  rw [hprev, Option.bind_some, put_eq h.header, Option.bind_some, hprev', Option.bind_some,
    ftrp_put h hv hlt, Option.bind_some, put_eq (s := { s with
      mem := s.mem.store (hdrp x) WSIZE v }) h.footer, Option.bind_some]
  exact (congrArg (fun o ↦ Option.bind o fun x' ↦
    k x' { s with mem := tagAt s.mem x n v }) hprev'')

/-- The previous block is free. -/
theorem coalesce_prev (h : Tiled s (l ++ P :: b :: r)) (hlisted : Listed s (l ++ P :: r) fl)
    (hP : P.alloc = false) (hl : Settled (l ++ [P])) (hr : Settled r)
    (hnext : (nextOf s r).alloc = true) :
    CoalescesTo s b.bp ⟨P.bp, b.size + P.size, false⟩ l r fl (fl.erase P.bp) := by
  have hmem : b ∈ l ++ P :: b :: r := by simp
  have hmemP : P ∈ l ++ P :: b :: r := by simp
  have hsizeb := h.sized b hmem
  have hsizeP := h.sized P hmemP
  have hbounds := (h.bounds hmemP).1
  have hsplit : l ++ P :: b :: r = (l ++ [P]) ++ b :: r := by simp
  have hprevOf : ∀ s, prevOf s (l ++ [P]) = P := fun _ ↦ List.getLastD_concat
  have h' := hsplit ▸ h
  have hbbp : P.bp + P.size = b.bp := by
    have hprev := h'.prev.2.2
    rwa [hprevOf] at hprev
  obtain ⟨m, p, heq, htiled, hlisted', hframe⟩ := h.take (by simp) hlisted hP
  have hsized : (b.size + P.size) % 8 = 0 ∧ 16 ≤ b.size + P.size := by omega
  have hmid : Tiles Block.bp Block.size P.bp [P, b] (P.bp + (b.size + P.size)) :=
    ⟨rfl, hbbp.symm, show P.bp + P.size + b.size = P.bp + (b.size + P.size) by omega⟩
  have hsplit' : l ++ P :: b :: r = l ++ [P, b] ++ r := by simp
  have htiled' := hsplit' ▸ htiled
  have hretag := htiled'.retag (q := ⟨P.bp, b.size + P.size, false⟩) hmid (by simp) hsized
  have hlisted'' := hlisted'.retag hretag
  have hsettled : Settled (l ++ ⟨P.bp, b.size + P.size, false⟩ :: r) :=
    Settled.join (List.isChain_append.mp hl).1 hr (hl.last_alloc hP) (head_alloc_of_nextOf hnext)
  rw [List.append_assoc, List.singleton_append] at hretag
  obtain ⟨m', heq', hheap, hframe'⟩ :=
    hretag.complete hlisted'' rfl (show 24 ≤ b.size + P.size by omega) hsettled
  refine ⟨m', ?_, hheap, fun z hz hlinks ↦ ?_⟩
  · have hprevBlkp : prevBlkp s b.bp = some P.bp := by
      have hprev := h'.prevBlkp
      rwa [hprevOf] at hprev
    have hprevAlloc : getAlloc s (P.bp + P.size - DSIZE) = some P.alloc :=
      getAlloc_of_tag hsizeP.1 (h.tagged P hmemP).footer
    have hprevBlkp' : prevBlkp { s with mem := m, freeListp := p } b.bp = some P.bp := by
      have hprev := (hsplit ▸ htiled).prevBlkp
      rwa [hprevOf] at hprev
    have hwritable := htiled'.writable (q := ⟨P.bp, b.size + P.size, false⟩) hmid (by simp) hsized.2
    have hle := hwritable.start
    have hstop := hwritable.stop
    have hlt := tag_lt (b := ⟨P.bp, b.size + P.size, false⟩) hsized.1
      (show b.size + P.size ≤ MAX_HEAP by dsimp only at hle hstop; omega)
    have hapart : hdrp P.bp + WSIZE ≤ b.bp - DSIZE := by
      unfold hdrp WSIZE DSIZE
      omega
    have hapart' : b.bp - DSIZE + WSIZE ≤ P.bp + (b.size + P.size) - DSIZE := by
      unfold WSIZE DSIZE
      omega
    unfold coalesce
    dsimp only [Bind.bind]
    rw [hprevBlkp, Option.bind_some, h.ftrp hmemP, Option.bind_some, hprevAlloc,
      Option.bind_some, h'.nextBlkp, Option.bind_some, h'.getAlloc_next, Option.bind_some,
      h.getSize_hdrp hmem, Option.bind_some, hP, hnext, if_neg (by decide), if_neg (by decide),
      if_pos (by decide), Option.bind_some, heq, Option.bind_some, hprevBlkp', Option.bind_some,
      htiled.getSize_hdrp hmemP, Option.bind_some, ← hprevBlkp']
    refine (putTags_prev hwritable (tag_size (b := ⟨P.bp, b.size + P.size, false⟩) hsized.1) hlt
      hprevBlkp' hapart hapart' _).trans ?_
    exact congrArg (fun o ↦ Option.bind o fun s ↦ some (P.bp, s)) heq'
  · refine frame_trans ?_ ?_ List.erase_subset hframe hframe' hz hlinks
    · change 4 ≤ P.bp
      omega
    · change 8 ≤ b.size + P.size
      omega

/-- Tagging a block around `y`, whose neighbours are looked up before each step. -/
theorem putTags_both {Result : Type} {w : ℕ} (h : Writable s x n) (hprev : prevBlkp s y = some x)
    (hnext : nextBlkp s y = some w) (hftrp : ftrp s w = some (x + n - DSIZE))
    (hheader : hdrp x + WSIZE ≤ y - DSIZE) (hheader' : hdrp x + WSIZE ≤ hdrp y)
    (hheader'' : hdrp x + WSIZE ≤ hdrp w) (hfooter : y - DSIZE + WSIZE ≤ x + n - DSIZE)
    (k : ℕ → State → Option Result) :
    ((prevBlkp s y).bind fun x ↦ (put s (hdrp x) v).bind fun s ↦ (nextBlkp s y).bind fun w ↦
        (ftrp s w).bind fun p ↦ (put s p v).bind fun s ↦ (prevBlkp s y).bind fun x ↦ k x s) =
      k x { s with mem := tagAt s.mem x n v } := by
  have hnext' : nextBlkp { s with mem := s.mem.store (hdrp x) WSIZE v } y = some w :=
    (nextBlkp_congr (get_put_of_apart (Or.inr hheader'))).trans hnext
  have hftrp' : ftrp { s with mem := s.mem.store (hdrp x) WSIZE v } w = some (x + n - DSIZE) :=
    (ftrp_congr (get_put_of_apart (Or.inr hheader''))).trans hftrp
  have hprev'' : prevBlkp { s with mem := tagAt s.mem x n v } y = some x :=
    (prevBlkp_congr (get_tagAt_of_apart (Or.inr hheader) (Or.inl hfooter))).trans hprev
  rw [hprev, Option.bind_some, put_eq h.header, Option.bind_some, hnext', Option.bind_some,
    hftrp', Option.bind_some, put_eq (s := { s with
      mem := s.mem.store (hdrp x) WSIZE v }) h.footer, Option.bind_some]
  exact (congrArg (fun o ↦ Option.bind o fun x' ↦
    k x' { s with mem := tagAt s.mem x n v }) hprev'')

/-- Both neighbours are free. -/
theorem coalesce_both (h : Tiled s (l ++ P :: b :: N :: r)) (hlisted : Listed s (l ++ P :: N :: r) fl)
    (hP : P.alloc = false) (hN : N.alloc = false) (hl : Settled (l ++ [P]))
    (hr : Settled (N :: r)) :
    CoalescesTo s b.bp ⟨P.bp, b.size + (P.size + N.size), false⟩ l r fl
      ((fl.erase N.bp).erase P.bp) := by
  have hmem : b ∈ l ++ P :: b :: N :: r := by simp
  have hmemP : P ∈ l ++ P :: b :: N :: r := by simp
  have hmemN : N ∈ l ++ P :: b :: N :: r := by simp
  have hsizeb := h.sized b hmem
  have hsizeP := h.sized P hmemP
  have hsizeN := h.sized N hmemN
  have hbounds := (h.bounds hmemP).1
  have hsplit : l ++ P :: b :: N :: r = (l ++ [P]) ++ b :: N :: r := by simp
  have hprevOf : ∀ s, prevOf s (l ++ [P]) = P := fun _ ↦ List.getLastD_concat
  have h' := hsplit ▸ h
  have hbbp : P.bp + P.size = b.bp := by
    have hprev := h'.prev.2.2
    rwa [hprevOf] at hprev
  have hNbp : N.bp = b.bp + b.size := h'.next.2.2
  have hsubN : ((l ++ [P]) ++ N :: r).Sublist (l ++ P :: b :: N :: r) := by simp
  have hlisted₀ : Listed s ((l ++ [P]) ++ N :: r) fl := by simpa using hlisted
  obtain ⟨m₁, p₁, heq₁, htiled₁, hlisted₁, hframe₁⟩ := h.take hsubN hlisted₀ hN
  have hsubP : (l ++ P :: r).Sublist (l ++ P :: b :: N :: r) := by simp
  rw [List.append_assoc, List.singleton_append] at hlisted₁
  obtain ⟨m, p, heq, htiled, hlisted', hframe⟩ := htiled₁.take hsubP hlisted₁ hP
  have hsized : (b.size + (P.size + N.size)) % 8 = 0 ∧ 16 ≤ b.size + (P.size + N.size) := by omega
  have hmid : Tiles Block.bp Block.size P.bp [P, b, N] (P.bp + (b.size + (P.size + N.size))) := by
    refine ⟨rfl, hbbp.symm, ?_, ?_⟩
    · rw [hNbp, hbbp]
    · change P.bp + P.size + b.size + N.size = P.bp + (b.size + (P.size + N.size))
      omega
  have hsplit' : l ++ P :: b :: N :: r = l ++ [P, b, N] ++ r := by simp
  have htiled' := hsplit' ▸ htiled
  have hretag := htiled'.retag (q := ⟨P.bp, b.size + (P.size + N.size), false⟩) hmid (by simp) hsized
  have hlisted'' := hlisted'.retag hretag
  have hsettled : Settled (l ++ ⟨P.bp, b.size + (P.size + N.size), false⟩ :: r) :=
    Settled.join (List.isChain_append.mp hl).1 (List.isChain_cons.mp hr).2 (hl.last_alloc hP)
      (hr.head_alloc hN)
  rw [List.append_assoc, List.singleton_append] at hretag
  obtain ⟨m', heq', hheap, hframe'⟩ := hretag.complete hlisted'' rfl
    (show 24 ≤ b.size + (P.size + N.size) by omega) hsettled
  refine ⟨m', ?_, hheap, fun z hz hlinks ↦ ?_⟩
  · have hprevBlkp : prevBlkp s b.bp = some P.bp := by
      have hprev := h'.prevBlkp
      rwa [hprevOf] at hprev
    have hprevAlloc : getAlloc s (P.bp + P.size - DSIZE) = some P.alloc :=
      getAlloc_of_tag hsizeP.1 (h.tagged P hmemP).footer
    have hnextBlkp : nextBlkp s b.bp = some N.bp := h'.nextBlkp
    have hnextAlloc : getAlloc s (hdrp N.bp) = some N.alloc := h'.getAlloc_next
    have hprevBlkp₁ : prevBlkp { s with mem := m₁, freeListp := p₁ } b.bp = some P.bp := by
      have hprev := (hsplit ▸ htiled₁).prevBlkp
      rwa [hprevOf] at hprev
    have hprevBlkp' : prevBlkp { s with mem := m, freeListp := p } b.bp = some P.bp := by
      have hprev := (hsplit ▸ htiled).prevBlkp
      rwa [hprevOf] at hprev
    have hnextBlkp' : nextBlkp { s with mem := m, freeListp := p } b.bp = some N.bp :=
      (hsplit ▸ htiled).nextBlkp
    have hftrp' := htiled.ftrp hmemN
    have hsizeN' := getSize_of_tag hsizeN.1 (htiled.tagged N hmemN).footer
    have hfoot : N.bp + N.size - DSIZE = P.bp + (b.size + (P.size + N.size)) - DSIZE := by
      unfold DSIZE
      omega
    have hwritable := htiled'.writable (q := ⟨P.bp, b.size + (P.size + N.size), false⟩) hmid
      (by simp) hsized.2
    unfold coalesce
    dsimp only [Bind.bind]
    rw [hprevBlkp, Option.bind_some, h.ftrp hmemP, Option.bind_some, hprevAlloc,
      Option.bind_some, hnextBlkp, Option.bind_some, hnextAlloc, Option.bind_some,
      h.getSize_hdrp hmem, Option.bind_some, hP, hN, if_neg (by decide), if_neg (by decide),
      if_neg (by decide), Option.bind_some, heq₁, Option.bind_some, hprevBlkp₁, Option.bind_some,
      heq, Option.bind_some, hprevBlkp', Option.bind_some, htiled.getSize_hdrp hmemP,
      Option.bind_some, hnextBlkp', Option.bind_some, hftrp', Option.bind_some, hsizeN',
      Option.bind_some, ← hprevBlkp']
    refine (putTags_both hwritable hprevBlkp' hnextBlkp' (hftrp'.trans (congrArg some hfoot))
      ?_ ?_ ?_ ?_ _).trans ?_
    · unfold hdrp WSIZE DSIZE
      dsimp only
      omega
    · unfold hdrp WSIZE
      dsimp only
      omega
    · unfold hdrp WSIZE
      dsimp only
      omega
    · unfold WSIZE DSIZE
      dsimp only
      omega
    · exact congrArg (fun o ↦ Option.bind o fun s ↦ some (P.bp, s)) heq'
  · refine frame_trans ?_ ?_ ?_ ?_ hframe' hz hlinks
    · change 4 ≤ P.bp
      omega
    · change 8 ≤ b.size + (P.size + N.size)
      omega
    · exact List.Subset.trans List.erase_subset List.erase_subset
    · intro z hz
      exact (hframe z fun hlinks ↦ hz (hlinks.mono List.erase_subset)).trans (hframe₁ z hz)

/-! ### All cases -/

/-- `q` is `b` merged with `p`, the block before it if that is free, and with `n`, the one behind it. -/
structure Merged (l p : List Block) (b : Block) (n r : List Block) (q : Block) : Prop where
  front : (p = [] ∧ ∀ c ∈ l.getLast?, c.alloc = true) ∨ ∃ P, p = [P] ∧ P.alloc = false
  back : (n = [] ∧ ∀ c ∈ r.head?, c.alloc = true) ∨ ∃ N, n = [N] ∧ N.alloc = false
  tiles : Tiles Block.bp Block.size q.bp (p ++ b :: n) (q.bp + q.size)
  free : q.alloc = false

theorem exists_of_prevOf (h : (prevOf s l).alloc = false) :
    ∃ l' P, l = l' ++ [P] ∧ P.alloc = false := by
  rcases List.eq_nil_or_concat l with rfl | ⟨l', P, rfl⟩
  · exact Bool.noConfusion h
  · rw [List.concat_eq_append] at h ⊢
    rw [prevOf, List.getLastD_concat] at h
    exact ⟨l', P, rfl, h⟩

theorem exists_of_nextOf (h : (nextOf s r).alloc = false) :
    ∃ N r', r = N :: r' ∧ N.alloc = false := by
  cases r with
  | nil => exact Bool.noConfusion h
  | cons N r => exact ⟨N, r, rfl, h⟩

/-- `coalesce` merges a free block with its free neighbours and lists it. -/
theorem coalesce_spec (h : Tiled s (l ++ b :: r)) (hlisted : Listed s (l ++ r) fl)
    (hb : b.alloc = false) (hl : Settled l) (hr : Settled r)
    (hroom : 24 ≤ b.size ∨ (prevOf s l).alloc = false ∨ (nextOf s r).alloc = false) :
    ∃ l' p n r' q, l = l' ++ p ∧ r = n ++ r' ∧ Merged l' p b n r' q ∧
      CoalescesTo s b.bp q l' r' fl (fl.diff ((n ++ p).map Block.bp)) := by
  cases hprev : (prevOf s l).alloc with
  | true =>
    have hlast := last_alloc_of_prevOf hprev
    cases hnext : (nextOf s r).alloc with
    | true =>
      have hroom' : 24 ≤ b.size := by simpa [hprev, hnext] using hroom
      exact ⟨l, [], [], r, b, (List.append_nil l).symm, rfl,
        ⟨Or.inl ⟨rfl, hlast⟩, Or.inl ⟨rfl, head_alloc_of_nextOf hnext⟩, ⟨rfl, rfl⟩, hb⟩,
        coalesce_alone h hlisted hb hroom' hl hr hprev hnext⟩
    | false =>
      obtain ⟨N, r, rfl, hN⟩ := exists_of_nextOf hnext
      have hNbp : N.bp = b.bp + b.size := h.next.2.2
      have hdiff : fl.diff [N.bp] = fl.erase N.bp := by rw [List.diff_cons, List.diff_nil]
      exact ⟨l, [], [N], r, ⟨b.bp, b.size + N.size, false⟩, (List.append_nil l).symm, rfl,
        ⟨Or.inl ⟨rfl, hlast⟩, Or.inr ⟨N, rfl, hN⟩, ⟨rfl, hNbp, Nat.add_assoc _ _ _⟩, rfl⟩,
        hdiff.symm ▸ coalesce_next h hlisted hN hl hr hprev⟩
  | false =>
    obtain ⟨l, P, rfl, hP⟩ := exists_of_prevOf hprev
    have hprevOf : prevOf s (l ++ [P]) = P := List.getLastD_concat
    have hbbp : P.bp + P.size = b.bp := hprevOf ▸ h.prev.2.2
    rw [List.append_assoc, List.singleton_append] at h hlisted
    cases hnext : (nextOf s r).alloc with
    | true =>
      have hsum : P.bp + P.size + b.size = P.bp + (b.size + P.size) := by omega
      have hdiff : fl.diff [P.bp] = fl.erase P.bp := by rw [List.diff_cons, List.diff_nil]
      exact ⟨l, [P], [], r, ⟨P.bp, b.size + P.size, false⟩, rfl, rfl,
        ⟨Or.inr ⟨P, rfl, hP⟩, Or.inl ⟨rfl, head_alloc_of_nextOf hnext⟩,
          ⟨rfl, hbbp.symm, hsum⟩, rfl⟩, hdiff.symm ▸ coalesce_prev h hlisted hP hl hr hnext⟩
    | false =>
      obtain ⟨N, r, rfl, hN⟩ := exists_of_nextOf hnext
      have hsplit : l ++ P :: b :: N :: r = (l ++ [P]) ++ b :: N :: r := by simp
      have hNbp : N.bp = b.bp + b.size := (hsplit ▸ h).next.2.2
      have hNbp' : N.bp = P.bp + P.size + b.size := by omega
      have hsum : P.bp + P.size + b.size + N.size = P.bp + (b.size + (P.size + N.size)) := by omega
      have hdiff : fl.diff [N.bp, P.bp] = (fl.erase N.bp).erase P.bp := by
        rw [List.diff_cons, List.diff_cons, List.diff_nil]
      exact ⟨l, [P], [N], r, ⟨P.bp, b.size + (P.size + N.size), false⟩, rfl, rfl,
        ⟨Or.inr ⟨P, rfl, hP⟩, Or.inr ⟨N, rfl, hN⟩, ⟨rfl, hbbp.symm, hNbp', hsum⟩, rfl⟩,
        hdiff.symm ▸ coalesce_both h hlisted hP hN hl hr⟩

end Jungle.MallocLab
