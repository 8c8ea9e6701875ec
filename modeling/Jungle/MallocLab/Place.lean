import Jungle.MallocLab.Free

/-!
# Placing an allocated block

`place` takes a free block out of the list and allocates it, or the front of it where what is left has
room for the links of a free block.
-/

set_option autoImplicit false
set_option relaxedAutoImplicit false

namespace Jungle.MallocLab

open Jungle.Lib

variable {s : State} {l r : List Block} {f : Block} {fl : List ℕ} {asize : ℕ}

/-- An allocated block may take the place of any. -/
theorem Settled.allocate {mid : List Block} {a : Block} (h : Settled (l ++ mid ++ r))
    (ha : a.alloc = true) : Settled (l ++ a :: r) := by
  have hchain := List.isChain_append.mp h
  refine List.isChain_append.mpr ⟨(List.isChain_append.mp hchain.1).1, List.isChain_cons.mpr
    ⟨fun _ _ ↦ Or.inl ha, hchain.2.1⟩, fun c _ d hd ↦ ?_⟩
  rw [List.head?_cons, Option.mem_some_iff] at hd
  exact Or.inr (hd ▸ ha)

/-- The size of what is left of a block. -/
theorem rest_eq (hle : asize ≤ f.size) (hlt : f.size ≤ MAX_HEAP) :
    (f.size + sizeMod - asize) % sizeMod = f.size - asize := by
  unfold sizeMod
  unfold MAX_HEAP at hlt
  omega

/-- The block is allocated as a whole. -/
theorem place_whole (h : Heap s (l ++ f :: r) fl) (hf : f.alloc = false) (hle : asize ≤ f.size)
    (hroom : f.size < asize + 24) : ∃ m p,
      place s f.bp asize = some { s with mem := m, freeListp := p } ∧
      Heap { s with mem := m, freeListp := p } (l ++ ⟨f.bp, f.size, true⟩ :: r) (fl.erase f.bp) ∧
      ∀ z, ¬InBlock f z → ¬LinksOf fl z → m z = s.mem z := by
  have hmem : f ∈ l ++ f :: r := by simp
  have hsized := h.sized f hmem
  have hbounds := h.bounds hmem
  have htop := h.top
  obtain ⟨m, p, heq, htiled, hlisted, hframe⟩ := h.take (by simp) h.toListed hf
  have hmid : Tiles Block.bp Block.size f.bp [f] (f.bp + f.size) := ⟨rfl, rfl⟩
  have htiled' : Tiled { s with mem := m, freeListp := p } (l ++ [f] ++ r) := by simpa using htiled
  have hretag := htiled'.retag (q := ⟨f.bp, f.size, true⟩) hmid (by simp) hsized
  have hlisted' := hlisted.retag hretag
  rw [List.append_assoc, List.singleton_append] at hretag
  have hsettled : Settled (l ++ ⟨f.bp, f.size, true⟩ :: r) := by
    have hsplit : Settled (l ++ [f] ++ r) := by simpa using h.settled
    exact hsplit.allocate rfl
  refine ⟨_, p, ?_, ⟨hretag, hlisted'.insert_alloc rfl, hsettled⟩, fun z hz hlinks ↦ ?_⟩
  · unfold place
    dsimp only [Bind.bind]
    rw [h.getSize_hdrp hmem, Option.bind_some, heq, Option.bind_some, rest_eq hle (by omega),
      if_neg (by unfold DSIZE; omega)]
    have hputs := htiled'.putTags (q := ⟨f.bp, f.size, true⟩) hmid (by simp) hsized some
    simp only [Option.bind_fun_some] at hputs
    exact hputs
  · refine (tagAt_frame (q := ⟨f.bp, f.size, true⟩) ?_ ?_ fun htag ↦ hz ?_).trans (hframe z hlinks)
    · unfold WSIZE
      dsimp only
      omega
    · unfold DSIZE
      dsimp only
      omega
    · exact OnTag.inBlock (q := f) htag (by unfold DSIZE; omega)

section Split

variable {bp size : ℕ}

/-- The memory in which a block is allocated in front of a free one. -/
def splitAt (m : Bytes) (bp asize size : ℕ) : Bytes :=
  tagAt (tagAt m bp asize (pack asize 1)) (bp + asize) (size - asize) (pack (size - asize) 0)

variable (hasize : asize % 8 = 0 ∧ 16 ≤ asize) (hroom : asize + 24 ≤ size) (hsize : size % 8 = 0)
  (hstart : s.startBrk + 16 ≤ bp) (hstop : bp + size ≤ s.startBrk + MAX_HEAP)
include hasize hroom hsize hstart hstop

/-- Both parts of the block have their tags in the heap. -/
theorem writable_split : Writable s bp asize ∧ Writable s (bp + asize) (size - asize) := by
  refine ⟨⟨?_, ?_, ?_⟩, ⟨?_, ?_, ?_⟩⟩ <;> (try unfold WSIZE) <;> (try unfold DSIZE) <;> omega

/-- The allocated part is tagged. -/
theorem tagged_split_front :
    Tagged { s with mem := splitAt s.mem bp asize size } ⟨bp, asize, true⟩ := by
  obtain ⟨hfront, hback⟩ := writable_split hasize hroom hsize hstart hstop
  have htag := tagged_tagAt (q := ⟨bp, asize, true⟩) hfront hasize.1
  refine htag.congr ?_ rfl fun x hx ↦ tagAt_frame (q := ⟨bp + asize, size - asize, false⟩) ?_ ?_ ?_
  · unfold DSIZE
    dsimp only
    omega
  · unfold WSIZE
    dsimp only
    omega
  · unfold DSIZE
    dsimp only
    omega
  · unfold OnTag WSIZE DSIZE at *
    dsimp only at *
    omega

/-- The free part is tagged. -/
theorem tagged_split_back : Tagged { s with mem := splitAt s.mem bp asize size }
    ⟨bp + asize, size - asize, false⟩ := by
  obtain ⟨-, hback⟩ := writable_split hasize hroom hsize hstart hstop
  have hrest : (size - asize) % 8 = 0 := by omega
  exact tagged_tagAt (s := { s with mem := tagAt s.mem bp asize (pack asize 1) })
    (q := ⟨bp + asize, size - asize, false⟩) ⟨hback.start, hback.room, hback.stop⟩ hrest

omit hsize hstop in
/-- Only tags of the two parts change. -/
theorem splitAt_frame {z : ℕ} (hz : ¬(bp ≤ z + WSIZE ∧ z + WSIZE < bp + size)) :
    splitAt s.mem bp asize size z = s.mem z := by
  refine (tagAt_frame (q := ⟨bp + asize, size - asize, false⟩) ?_ ?_ ?_).trans
    (tagAt_frame (q := ⟨bp, asize, true⟩) ?_ ?_ ?_) <;>
    simp only [OnTag, WSIZE, DSIZE] at hz ⊢ <;> omega

/-- The writes of `place` that split a block. -/
theorem splitTags_bind {Result : Type} (k : ℕ → State → Option Result) :
    ((put s (hdrp bp) (pack asize 1)).bind fun s ↦ (ftrp s bp).bind fun p ↦
        (put s p (pack asize 1)).bind fun s ↦ (nextBlkp s bp).bind fun x ↦
        (put s (hdrp x) (pack (size - asize) 0)).bind fun s ↦ (ftrp s x).bind fun p ↦
        (put s p (pack (size - asize) 0)).bind fun s ↦ k x s) =
      k (bp + asize) { s with mem := splitAt s.mem bp asize size } := by
  obtain ⟨hfront, hback⟩ := writable_split hasize hroom hsize hstart hstop
  have hrest : (size - asize) % 8 = 0 := by omega
  have htag := tagged_tagAt (q := ⟨bp, asize, true⟩) hfront hasize.1
  have hnext : nextBlkp { s with mem := tagAt s.mem bp asize (pack asize 1) } bp =
      some (bp + asize) := nextBlkp_of_tag (b := ⟨bp, asize, true⟩) hasize.1 htag.header
  refine (putTags_bind (v := pack asize 1) hfront (tag_size (b := ⟨bp, asize, true⟩) hasize.1)
    (tag_lt (b := ⟨bp, asize, true⟩) hasize.1 ?_) _).trans ?_
  · dsimp only
    omega
  rw [hnext, Option.bind_some]
  refine putTags_bind (s := { s with mem := tagAt s.mem bp asize (pack asize 1) })
    ⟨hback.start, hback.room, hback.stop⟩
    (tag_size (b := ⟨bp + asize, size - asize, false⟩) hrest)
    (tag_lt (b := ⟨bp + asize, size - asize, false⟩) hrest ?_) _
  dsimp only
  omega

end Split

/-- The front of the block is allocated, and what is left is listed. -/
theorem place_split (h : Heap s (l ++ f :: r) fl) (hf : f.alloc = false)
    (hasize : asize % 8 = 0 ∧ 16 ≤ asize) (hroom : asize + 24 ≤ f.size) : ∃ m,
      place s f.bp asize = some { s with mem := m, freeListp := f.bp + asize } ∧
      Heap { s with mem := m, freeListp := f.bp + asize }
        (l ++ ⟨f.bp, asize, true⟩ :: ⟨f.bp + asize, f.size - asize, false⟩ :: r)
        ((f.bp + asize) :: fl.erase f.bp) ∧
      ∀ z, ¬InBlock f z → ¬LinksOf fl z → m z = s.mem z := by
  have hmem : f ∈ l ++ f :: r := by simp
  have hsized := (h.sized f hmem).1
  have hbounds := h.bounds hmem
  have htop := h.top
  have hstop : f.bp + f.size ≤ s.startBrk + MAX_HEAP := by omega
  obtain ⟨m, p, heq, htiled, hlisted, hframe⟩ := h.take (by simp) h.toListed hf
  have htiled' : Tiled { s with mem := m, freeListp := p } (l ++ [f] ++ r) := by simpa using htiled
  obtain ⟨hl, hr⟩ := htiled'.tiles.cut ⟨rfl, rfl⟩ (List.cons_ne_nil f [])
  have hmid : Tiles Block.bp Block.size f.bp
      [⟨f.bp, asize, true⟩, ⟨f.bp + asize, f.size - asize, false⟩] (f.bp + f.size) :=
    ⟨rfl, rfl, show f.bp + asize + (f.size - asize) = f.bp + f.size by omega⟩
  have hsplit : Tiled { s with mem := splitAt m f.bp asize f.size, freeListp := p }
      (l ++ [⟨f.bp, asize, true⟩, ⟨f.bp + asize, f.size - asize, false⟩] ++ r) := by
    have hroomy : Roomy (l ++ [f] ++ r) (fl.erase f.bp) := hlisted.roomy.mono (by simp)
    refine htiled'.replace hroomy hl hmid hr ?_ ?_ fun z hz _ ↦ ?_
    · intro b hb
      rcases List.mem_pair.mp hb with rfl | rfl
      · exact tagged_split_front (s := { s with mem := m, freeListp := p }) hasize hroom hsized
          hbounds.1 hstop
      · exact tagged_split_back (s := { s with mem := m, freeListp := p }) hasize hroom hsized
          hbounds.1 hstop
    · intro b hb
      rcases List.mem_pair.mp hb with rfl | rfl
      · exact hasize
      · dsimp only
        omega
    · exact splitAt_frame (s := { s with mem := m, freeListp := p }) hasize hroom hbounds.1 hz
  have hlisted' : Listed { s with mem := splitAt m f.bp asize f.size, freeListp := p }
      ((l ++ [⟨f.bp, asize, true⟩]) ++ r) (fl.erase f.bp) := by
    have hkeep := hlisted.frame htiled fun z hz ↦ splitAt_frame
      (s := { s with mem := m, freeListp := p }) hasize hroom hbounds.1 hz
    rw [List.append_assoc, List.singleton_append]
    exact hkeep.insert_alloc rfl
  have hsettled : Settled ((l ++ [⟨f.bp, asize, true⟩]) ++
      ⟨f.bp + asize, f.size - asize, false⟩ :: r) := by
    have hfr : Settled (f :: r) := (List.isChain_append.mp h.settled).2.1
    have hl' : Settled (l ++ [f] ++ []) := by
      have hsplit : Settled (l ++ [f] ++ r) := by simpa using h.settled
      rw [List.append_nil]
      exact (List.isChain_append.mp hsplit).1
    refine (hl'.allocate (a := ⟨f.bp, asize, true⟩) rfl).join (List.isChain_cons.mp hfr).2
      (fun c hc ↦ ?_) (hfr.head_alloc hf)
    rw [List.getLast?_append, List.getLast?_singleton, Option.some_or, Option.mem_some_iff] at hc
    exact hc ▸ rfl
  have hsplit' : l ++ [⟨f.bp, asize, true⟩, ⟨f.bp + asize, f.size - asize, false⟩] ++ r =
      (l ++ [⟨f.bp, asize, true⟩]) ++ ⟨f.bp + asize, f.size - asize, false⟩ :: r := by simp
  rw [hsplit'] at hsplit
  obtain ⟨m', heq', hheap, hframe'⟩ := hsplit.complete hlisted' rfl
    (show 24 ≤ f.size - asize by omega) hsettled
  rw [List.append_assoc, List.singleton_append] at hheap
  refine ⟨m', ?_, hheap, fun z hz hlinks ↦ ?_⟩
  · unfold place
    dsimp only [Bind.bind]
    rw [h.getSize_hdrp hmem, Option.bind_some, heq, Option.bind_some,
      rest_eq (by omega) (by omega), if_pos (by unfold DSIZE; omega)]
    exact (splitTags_bind (s := { s with mem := m, freeListp := p }) hasize hroom hsized hbounds.1
      hstop fun x s ↦ addToFreeList s x).trans heq'
  · rw [hframe' z ?_ fun hlinks' ↦ hlinks (hlinks'.mono List.erase_subset)]
    · exact (splitAt_frame (s := { s with mem := m, freeListp := p }) hasize hroom hbounds.1
        hz).trans (hframe z hlinks)
    · unfold InBlock WSIZE at *
      dsimp only
      omega

end Jungle.MallocLab
