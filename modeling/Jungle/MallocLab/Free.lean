import Jungle.MallocLab.Coalesce

/-!
# Freeing a block

`mm_free` tags the block as free, merges it with its free neighbours and puts the merged block in front
of the free list. The other blocks keep their bytes, but for the links of free ones, and the other free
blocks their order in the list.
-/

set_option autoImplicit false
set_option relaxedAutoImplicit false

namespace Jungle.MallocLab

open Jungle.Lib

/-- A heap in which every block has room for the links, be it free or not. -/
structure WellFormed (s : State) (blocks : List Block) (fl : List ℕ) : Prop extends
    Heap s blocks fl where
  minimum : ∀ b ∈ blocks, 24 ≤ b.size

/-- A heap with a free block of 24 bytes in front of an allocated one of 40. -/
def hole : State where
  mem
    | 12 | 16 => 9
    | 20 | 40 => 24
    | 44 | 80 => 41
    | 84 => 1
    | _ => 0
  startBrk := 8
  brk := 88
  freeListp := 24

theorem load_hole {p n : ℕ} (hle : 8 ≤ p) (hlt : p + n ≤ 96) :
    load hole p n = some (hole.mem.load p n) := by
  refine load_eq ⟨hle, Nat.le_trans hlt ?_⟩
  decide

theorem wellFormed_hole : WellFormed hole ([⟨24, 24, false⟩] ++ ⟨48, 40, true⟩ :: []) [24] where
  placed := ⟨by decide, by decide, by decide⟩
  top := by decide
  tiles := ⟨rfl, rfl, rfl⟩
  prologue := ⟨load_hole (by decide) (by decide), load_hole (by decide) (by decide)⟩
  tagged := by
    intro b hb
    rcases List.mem_pair.mp hb with rfl | rfl
    · exact ⟨load_hole (by decide) (by decide), load_hole (by decide) (by decide)⟩
    · exact ⟨load_hole (by decide) (by decide), load_hole (by decide) (by decide)⟩
  epilogue := load_hole (by decide) (by decide)
  sized := by simp
  linked := by
    refine ⟨?_, List.nodup_singleton 24⟩
    change Links _ _ [0, 24, 0]
    rw [links_cons_cons, links_cons_cons]
    exact ⟨⟨rfl, rfl⟩, ⟨rfl, rfl⟩, links_singleton⟩
  mem_iff x := by
    constructor
    · intro hx
      exact ⟨⟨24, 24, false⟩, by simp, rfl, (List.mem_singleton.mp hx).symm⟩
    · rintro ⟨b, hb, hfree, rfl⟩
      rcases List.mem_pair.mp hb with rfl | rfl
      · exact List.mem_singleton.mpr rfl
      · exact absurd hfree (by decide)
  room := by simp
  settled := by simp [Settled]
  minimum := by simp

/-- The header, the footer and the payload of a block are the same, but for the links of a free one. -/
def Kept (s s' : State) (b : Block) : Prop :=
  ∀ x, InBlock b x → (b.alloc = false → ¬(b.bp ≤ x ∧ x < b.bp + 16)) → s'.mem x = s.mem x

variable {s s' s'' : State} {blocks l r l' r' p n : List Block} {b b' c q : Block} {fl : List ℕ}
  {x z head : ℕ} {m : Bytes}

theorem Kept.refl (s : State) (b : Block) : Kept s s b := fun _ _ _ ↦ rfl

theorem Kept.trans (h : Kept s s' b) (h' : Kept s' s'' b) : Kept s s'' b :=
  fun x hx hlinks ↦ (h' x hx hlinks).trans (h x hx hlinks)

/-- Bytes of a block that are not links of it are no links at all. -/
theorem Heap.not_linksOf (h : Heap s blocks fl) (hc : c ∈ blocks) (hx : InBlock c x)
    (hlinks : c.alloc = false → ¬(c.bp ≤ x ∧ x < c.bp + 16)) : ¬LinksOf fl x := by
  rintro ⟨f, hf, hfx⟩
  obtain ⟨d, hd, hfree, rfl⟩ := (h.mem_iff f).mp hf
  have hroom := h.room d hd hfree
  rcases h.eq_or_apart hc hd with rfl | hapart
  · exact hlinks hfree hfx
  · unfold InBlock WSIZE at hx
    omega

/-- Two blocks have no byte in common. -/
theorem Tiled.not_inBlock (h : Tiled s blocks) (hb : b ∈ blocks) (hc : c ∈ blocks) (hne : b ≠ c)
    (hx : InBlock b x) : ¬InBlock c x := by
  have hapart := (h.eq_or_apart hb hc).resolve_left hne
  unfold InBlock WSIZE at *
  omega

/-- Where only a block and links of the list change, the other blocks are kept. -/
theorem Heap.kept (h : Heap s blocks fl) (h' : Tiled s' (l ++ q :: r)) (hc : c ∈ l ++ r)
    (hmem : c ∈ blocks)
    (hframe : ∀ z, ¬InBlock q z → ¬LinksOf fl z → s'.mem z = s.mem z) : Kept s s' c := by
  intro x hx hlinks
  refine hframe x ?_ (h.not_linksOf hmem hx hlinks)
  have hq : q ∈ l ++ q :: r := by simp
  have hc' : c ∈ l ++ q :: r := by
    rcases List.mem_append.mp hc with hc | hc <;> simp [hc]
  refine h'.not_inBlock hc' hq (fun heq ↦ ?_) hx
  exact h'.bp_ne (List.Sublist.refl _) hc (congrArg Block.bp heq)

/-- Merging depends on where the block is only. -/
theorem Merged.congr (h : Merged l p b n r q) (b' : Block) (hbp : b'.bp = b.bp) (hsize : b'.size = b.size) :
    Merged l p b' n r q := by
  refine ⟨h.front, h.back, ?_, h.free⟩
  obtain ⟨x, hp, hb, hn⟩ := Tiles.append_iff.mp h.tiles
  exact Tiles.append hp ⟨hbp.trans hb, hsize ▸ hn⟩

/-- The merged block contains the block. -/
theorem Merged.bounds (h : Merged l p b n r q) : q.bp ≤ b.bp ∧ b.bp + b.size ≤ q.bp + q.size :=
  h.tiles.bounds (by simp)

/-- `mm_free` merges an allocated block with its free neighbours and lists it. -/
theorem mmFree_spec (h : Heap s (l ++ b :: r) fl) (hb : b.alloc = true)
    (hroom : 24 ≤ b.size ∨ (prevOf s l).alloc = false ∨ (nextOf s r).alloc = false) :
    ∃ l' p n r' q m, l = l' ++ p ∧ r = n ++ r' ∧ Merged l' p b n r' q ∧
      mmFree s b.bp = some { s with mem := m, freeListp := q.bp } ∧
      Heap { s with mem := m, freeListp := q.bp } (l' ++ q :: r')
        (q.bp :: fl.diff ((n ++ p).map Block.bp)) ∧
      ∀ z, ¬InBlock q z → ¬LinksOf fl z → m z = s.mem z := by
  have hmem : b ∈ l ++ b :: r := by simp
  have hsized := h.sized b hmem
  have hbounds := (h.bounds hmem).1
  have htiled : Tiled s (l ++ [b] ++ r) := by simpa using h.toTiled
  have hmid : Tiles Block.bp Block.size b.bp [b] (b.bp + b.size) := ⟨rfl, rfl⟩
  have hretag := htiled.retag (q := ⟨b.bp, b.size, false⟩) hmid (by simp) hsized
  have hlisted := (h.toListed.erase_alloc hb).retag hretag
  rw [List.append_assoc, List.singleton_append] at hretag
  have hsettled := List.isChain_append.mp h.settled
  obtain ⟨l', p, n, r', q, rfl, rfl, hmerged, m, heq, hheap, hframe⟩ :=
    coalesce_spec hretag hlisted rfl hsettled.1 (List.isChain_cons.mp hsettled.2.1).2 hroom
  have hmerged' := hmerged.congr b rfl rfl
  have hbq := hmerged'.bounds
  refine ⟨l', p, n, r', q, m, rfl, rfl, hmerged', ?_, hheap, fun z hz hlinks ↦ ?_⟩
  · unfold mmFree
    dsimp only [Bind.bind]
    rw [h.getSize_hdrp hmem, Option.bind_some]
    refine (htiled.putTags (q := ⟨b.bp, b.size, false⟩) hmid (by simp) hsized _).trans ?_
    exact congrArg (fun o ↦ Option.bind o fun x ↦ some x.2) heq
  · rw [hframe z hz hlinks]
    refine tagAt_frame (q := ⟨b.bp, b.size, false⟩) ?_ ?_ fun htag ↦ hz ?_
    · unfold WSIZE
      dsimp only
      omega
    · unfold DSIZE
      dsimp only
      omega
    · unfold OnTag at htag
      unfold InBlock WSIZE DSIZE at *
      dsimp only at htag
      omega

/-- `mm_free` keeps the heap well-formed, and the blocks that it does not merge as they are. -/
theorem mmFree_wellFormed (h : WellFormed s (l ++ b :: r) fl) (hb : b.alloc = true) :
    ∃ l' p n r' q m, l = l' ++ p ∧ r = n ++ r' ∧ Merged l' p b n r' q ∧
      mmFree s b.bp = some { s with mem := m, freeListp := q.bp } ∧
      WellFormed { s with mem := m, freeListp := q.bp } (l' ++ q :: r')
        (q.bp :: fl.diff ((n ++ p).map Block.bp)) ∧
      ∀ c ∈ l' ++ r', Kept s { s with mem := m, freeListp := q.bp } c := by
  have hmin := h.minimum b (by simp)
  obtain ⟨l', p, n, r', q, m, rfl, rfl, hmerged, heq, hheap, hframe⟩ :=
    mmFree_spec h.toHeap hb (Or.inl hmin)
  have hsub : ∀ c, c ∈ l' ++ r' → c ∈ l' ++ p ++ b :: (n ++ r') := by
    intro c hc
    rcases List.mem_append.mp hc with hc | hc <;> simp [hc]
  have hbq := hmerged.bounds
  refine ⟨l', p, n, r', q, m, rfl, rfl, hmerged, heq, ⟨hheap, fun c hc ↦ ?_⟩, fun c hc ↦ ?_⟩
  · rcases List.mem_append.mp hc with hc | hc
    · exact h.minimum c (hsub c (by simp [hc]))
    · rcases List.mem_cons.mp hc with rfl | hc
      · omega
      · exact h.minimum c (hsub c (by simp [hc]))
  · exact h.toHeap.kept hheap.toTiled hc (hsub c hc) hframe

/-- `mm_free` in a well-formed heap: the block is merged with precisely its free neighbours, the merged
block is listed once, the absorbed ones are not, and the others stay as they are. -/
theorem mmFree_exact (h : WellFormed s (l ++ b :: r) fl) (hb : b.alloc = true) :
    ∃ l' p n r' q s', l = l' ++ p ∧ r = n ++ r' ∧ Merged l' p b n r' q ∧
      mmFree s b.bp = some s' ∧ s'.startBrk = s.startBrk ∧ s'.brk = s.brk ∧
      WellFormed s' (l' ++ q :: r') (q.bp :: fl.diff ((n ++ p).map Block.bp)) ∧
      ∀ c ∈ l' ++ r', Kept s s' c := by
  obtain ⟨l', p, n, r', q, m, hl, hr, hmerged, heq, hheap, hkept⟩ := mmFree_wellFormed h hb
  exact ⟨l', p, n, r', q, _, hl, hr, hmerged, heq, rfl, rfl, hheap, hkept⟩

/-- In the heap with the hole the block of 40 bytes is merged with the hole. -/
theorem mmFree_exact_hole : ∃ l' p n r' q s', [⟨24, 24, false⟩] = l' ++ p ∧ [] = n ++ r' ∧
    Merged l' p ⟨48, 40, true⟩ n r' q ∧ mmFree hole 48 = some s' ∧
      s'.startBrk = hole.startBrk ∧ s'.brk = hole.brk ∧
      WellFormed s' (l' ++ q :: r') (q.bp :: [24].diff ((n ++ p).map Block.bp)) ∧
      ∀ c ∈ l' ++ r', Kept hole s' c :=
  mmFree_exact (l := [⟨24, 24, false⟩]) (b := ⟨48, 40, true⟩) (r := []) wellFormed_hole rfl

end Jungle.MallocLab
