import Jungle.Lib.Tiling
import Jungle.MallocLab.FreeList

/-!
# The blocks of the heap

`Tiled s blocks` says that the listed blocks tile the heap between the prologue and the epilogue and that
each has its size and whether it is allocated in its header and in its footer. The prologue and the
epilogue read as blocks, too, so that every block has two neighbours. A tiling depends on the words of
the headers and the footers only: the links of a free block lie between them. So the blocks of a part of
the heap may be replaced by others that tile the same part.
-/

set_option autoImplicit false
set_option relaxedAutoImplicit false

namespace Jungle.MallocLab

open Jungle.Lib

/-- A block: the address of its payload, its size with header and footer, whether it is allocated. -/
structure Block where
  bp : ℕ
  size : ℕ
  alloc : Bool

/-- The word in the header and the footer of a block. -/
def Block.tag (b : Block) : ℕ := pack b.size b.alloc.toNat

/-- The block between the header and the footer of the prologue. -/
def State.prologue (s : State) : Block := ⟨s.startBrk + 2 * WSIZE, DSIZE, true⟩

/-- The block of which the header of the epilogue is one. -/
def State.epilogue (s : State) : Block := ⟨s.brk, 0, true⟩

/-- A block has its tag in its header and its footer. -/
structure Tagged (s : State) (b : Block) : Prop where
  header : get s (hdrp b.bp) = some b.tag
  footer : get s (b.bp + b.size - DSIZE) = some b.tag

/-- The blocks tile the heap between the prologue and the epilogue. -/
structure Tiled (s : State) (blocks : List Block) : Prop where
  placed : s.Placed
  top : s.brk ≤ s.startBrk + MAX_HEAP
  tiles : Tiles Block.bp Block.size (s.startBrk + 16) blocks s.brk
  prologue : Tagged s s.prologue
  tagged : ∀ b ∈ blocks, Tagged s b
  epilogue : get s (hdrp s.brk) = some s.epilogue.tag
  sized : ∀ b ∈ blocks, b.size % 8 = 0 ∧ 16 ≤ b.size

/-- The listed addresses are those of blocks that have room for links. -/
def Roomy (blocks : List Block) (fl : List ℕ) : Prop :=
  ∀ c ∈ fl, ∃ b ∈ blocks, b.bp = c ∧ 24 ≤ b.size

/-- The byte is one of the header or the footer of the block. -/
def OnTag (b : Block) (x : ℕ) : Prop :=
  b.bp ≤ x + WSIZE ∧ x < b.bp ∨ b.bp + b.size ≤ x + DSIZE ∧ x + WSIZE < b.bp + b.size

variable {s s' : State} {blocks l mid mid' r : List Block} {b c q : Block} {fl : List ℕ}
  {x y z p v n : ℕ} {m : Bytes}

/-! ### Words -/

theorem get_eq (h : InArena s p WSIZE) : get s p = some (s.mem.load p WSIZE) := load_eq h

/-- A word depends on its bytes only. -/
theorem get_congr (hstart : s'.startBrk = s.startBrk)
    (h : ∀ x, p ≤ x → x < p + WSIZE → s'.mem x = s.mem x) : get s' p = get s p := by
  simp only [get, load, InArena, hstart, Bytes.load_congr h]

/-- The tags of a block depend on its header and footer only. -/
theorem Tagged.congr (h : Tagged s b) (hbp : DSIZE ≤ b.bp) (hstart : s'.startBrk = s.startBrk)
    (hsame : ∀ x, OnTag b x → s'.mem x = s.mem x) : Tagged s' b := by
  unfold OnTag at hsame
  refine ⟨(get_congr hstart fun x hle hlt ↦ hsame x (Or.inl ?_)).trans h.header,
    (get_congr hstart fun x hle hlt ↦ hsame x (Or.inr ?_)).trans h.footer⟩
  · unfold hdrp WSIZE DSIZE at *
    omega
  · unfold WSIZE DSIZE at *
    omega

theorem tag_free (bp size : ℕ) : Block.tag ⟨bp, size, false⟩ = size := Nat.or_zero size

theorem tag_alloc (bp : ℕ) {size : ℕ} (h : size % 8 = 0) :
    Block.tag ⟨bp, size, true⟩ = size + 1 := by
  change size ||| 1 = size + 1
  obtain ⟨k, rfl⟩ : ∃ k, size = 8 * k := ⟨size / 8, by omega⟩
  have hor : 8 * k + 1 = 8 * k ||| 1 := Nat.two_pow_add_eq_or_of_lt (i := 3) (by decide) k
  exact hor.symm

theorem tag_eq (h : b.size % 8 = 0) : b.tag = b.size + b.alloc.toNat := by
  obtain ⟨bp, size, alloc⟩ := b
  cases alloc with
  | false => exact tag_free bp size
  | true => exact tag_alloc bp h

/-- The size in a tag. -/
theorem tag_size (h : b.size % 8 = 0) : b.tag / 8 * 8 = b.size := by
  have hbit := b.alloc.toNat_lt
  rw [tag_eq h]
  omega

/-- The bit of a tag. -/
theorem tag_bit (h : b.size % 8 = 0) : (b.tag % 2 == 1) = b.alloc := by
  have hmod : (b.size + b.alloc.toNat) % 2 = b.alloc.toNat % 2 := by omega
  rw [tag_eq h, hmod]
  cases b.alloc <;> rfl

theorem getSize_of_tag (h : b.size % 8 = 0) (hget : get s p = some b.tag) :
    getSize s p = some b.size := by
  rw [getSize, hget, Option.map_some, tag_size h]

theorem getAlloc_of_tag (h : b.size % 8 = 0) (hget : get s p = some b.tag) :
    getAlloc s p = some b.alloc := by
  rw [getAlloc, hget, Option.map_some, tag_bit h]

theorem ftrp_of_tag (h : b.size % 8 = 0) (hget : get s (hdrp b.bp) = some b.tag) :
    ftrp s b.bp = some (b.bp + b.size - DSIZE) := by
  rw [ftrp, getSize_of_tag h hget, Option.map_some]

theorem nextBlkp_of_tag (h : b.size % 8 = 0) (hget : get s (hdrp b.bp) = some b.tag) :
    nextBlkp s b.bp = some (b.bp + b.size) := by
  rw [nextBlkp, ← hdrp, getSize_of_tag h hget, Option.map_some]

theorem prevBlkp_of_tag (h : b.size % 8 = 0)
    (hget : get s (b.bp + b.size - DSIZE) = some b.tag) :
    prevBlkp s (b.bp + b.size) = some b.bp := by
  rw [prevBlkp, getSize_of_tag h hget, Option.map_some, Nat.add_sub_cancel]

/-! ### Reading a tiled heap -/

/-- The block before the blocks behind `l`. -/
def prevOf (s : State) (l : List Block) : Block := l.getLastD s.prologue

/-- The block behind the blocks before `r`. -/
def nextOf (s : State) (r : List Block) : Block := r.headD s.epilogue

namespace Tiled

theorem size_pos (h : Tiled s blocks) : ∀ b ∈ blocks, 0 < b.size := fun b hb ↦ by
  have hsized := (h.sized b hb).2
  omega

/-- The blocks lie between the prologue and the end of the heap. -/
theorem bounds (h : Tiled s blocks) (hb : b ∈ blocks) :
    s.startBrk + 16 ≤ b.bp ∧ b.bp + b.size ≤ s.brk :=
  h.tiles.bounds hb

theorem eq_or_apart (h : Tiled s blocks) (hb : b ∈ blocks) (hc : c ∈ blocks) :
    b = c ∨ b.bp + b.size ≤ c.bp ∨ c.bp + c.size ≤ b.bp :=
  h.tiles.eq_or_apart hb hc

theorem eq_of_bp_eq (h : Tiled s blocks) (hb : b ∈ blocks) (hc : c ∈ blocks)
    (hbp : b.bp = c.bp) : b = c :=
  h.tiles.eq_of_pos_eq h.size_pos hb hc hbp

/-- Every block starts at a multiple of 8. -/
theorem aligned (h : Tiled s blocks) (hb : b ∈ blocks) : b.bp % 8 = 0 := by
  have haligned := h.placed.aligned
  exact Nat.mod_eq_zero_of_dvd (h.tiles.dvd_pos (by omega)
    (fun c hc ↦ Nat.dvd_of_mod_eq_zero (h.sized c hc).1) hb)

theorem getSize_hdrp (h : Tiled s blocks) (hb : b ∈ blocks) :
    getSize s (hdrp b.bp) = some b.size :=
  getSize_of_tag (h.sized b hb).1 (h.tagged b hb).header

theorem ftrp (h : Tiled s blocks) (hb : b ∈ blocks) :
    ftrp s b.bp = some (b.bp + b.size - DSIZE) :=
  ftrp_of_tag (h.sized b hb).1 (h.tagged b hb).header

/-- The neighbour in front of a block ends where the block starts. -/
theorem prev (h : Tiled s (l ++ b :: r)) :
    Tagged s (prevOf s l) ∧ (prevOf s l).size % 8 = 0 ∧
      (prevOf s l).bp + (prevOf s l).size = b.bp := by
  obtain ⟨x, hl, hb, -⟩ := Tiles.append_iff.mp h.tiles
  rcases List.eq_nil_or_concat l with rfl | ⟨l, p, rfl⟩
  · have hx : s.startBrk + 16 = x := hl
    have hsize : DSIZE % 8 = 0 := rfl
    refine ⟨h.prologue, hsize, ?_⟩
    rw [hb, ← hx]
    rfl
  · rw [List.concat_eq_append] at hl ⊢
    obtain ⟨w, -, hw, hend⟩ := Tiles.append_iff.mp hl
    have hp : p ∈ l.concat p ++ b :: r := by simp
    rw [prevOf, List.getLastD_concat]
    refine ⟨h.tagged p hp, (h.sized p hp).1, ?_⟩
    rw [hb, hw]
    exact hend

/-- The neighbour behind a block starts where the block ends. -/
theorem next (h : Tiled s (l ++ b :: r)) :
    get s (hdrp (nextOf s r).bp) = some (nextOf s r).tag ∧ (nextOf s r).size % 8 = 0 ∧
      (nextOf s r).bp = b.bp + b.size := by
  obtain ⟨x, -, hb, hr⟩ := Tiles.append_iff.mp h.tiles
  cases r with
  | nil =>
    refine ⟨h.epilogue, rfl, ?_⟩
    rw [hb]
    exact hr.symm
  | cons n r =>
    have hn : n ∈ l ++ b :: n :: r := by simp
    refine ⟨(h.tagged n hn).header, (h.sized n hn).1, ?_⟩
    rw [hb]
    exact hr.1

theorem prevBlkp (h : Tiled s (l ++ b :: r)) : prevBlkp s b.bp = some (prevOf s l).bp := by
  obtain ⟨htag, hsize, hend⟩ := h.prev
  rw [← hend]
  exact prevBlkp_of_tag hsize htag.footer

theorem nextBlkp (h : Tiled s (l ++ b :: r)) : nextBlkp s b.bp = some (nextOf s r).bp := by
  have hb : b ∈ l ++ b :: r := by simp
  rw [h.next.2.2]
  exact nextBlkp_of_tag (h.sized b hb).1 (h.tagged b hb).header

end Tiled

/-! ### Changing a tiled heap -/

/-- The words of headers and footers are not links. -/
theorem Tiled.not_linksOf (h : Tiled s blocks) (hroomy : Roomy blocks fl) (hb : b ∈ blocks)
    (hx : OnTag b x) : ¬LinksOf fl x := by
  rintro ⟨c, hc, hcx⟩
  obtain ⟨d, hd, rfl, hroom⟩ := hroomy c hc
  have hsized := (h.sized b hb).2
  unfold OnTag WSIZE DSIZE at hx
  rcases h.eq_or_apart hb hd with rfl | hapart
  · omega
  · omega

/-- Links lie behind the prologue and before the epilogue. -/
theorem Tiled.linksOf_bounds (h : Tiled s blocks) (hroomy : Roomy blocks fl) (hx : LinksOf fl x) :
    s.startBrk + 16 ≤ x ∧ x + DSIZE < s.brk := by
  obtain ⟨c, hc, hcx⟩ := hx
  obtain ⟨d, hd, rfl, hroom⟩ := hroomy c hc
  have hbounds := h.bounds hd
  unfold DSIZE
  omega

/-- The links of listed blocks that have room for them do not meet. -/
theorem Tiled.cells (h : Tiled s blocks) (hroomy : Roomy blocks fl) : Cells s fl where
  arena c hc := by
    obtain ⟨b, hb, rfl, hroom⟩ := hroomy c hc
    have hbounds := h.bounds hb
    have htop := h.top
    unfold InArena
    omega
  apart c hc d hd hne := by
    obtain ⟨b, hb, rfl, hroom⟩ := hroomy c hc
    obtain ⟨b', hb', rfl, hroom'⟩ := hroomy d hd
    rcases h.eq_or_apart hb hb' with rfl | hapart
    · exact absurd rfl hne
    · omega

/-- The blocks from `x` to `y` may be replaced by others that tile this part. -/
theorem Tiled.replace (h : Tiled s (l ++ mid ++ r)) (hroomy : Roomy (l ++ mid ++ r) fl)
    (hl : Tiles Block.bp Block.size (s.startBrk + 16) l x)
    (hmid' : Tiles Block.bp Block.size x mid' y) (hr : Tiles Block.bp Block.size y r s.brk)
    (htagged : ∀ b ∈ mid', Tagged { s with mem := m, freeListp := p } b)
    (hsized : ∀ b ∈ mid', b.size % 8 = 0 ∧ 16 ≤ b.size)
    (hframe : ∀ z, ¬(x ≤ z + WSIZE ∧ z + WSIZE < y) → ¬LinksOf fl z → m z = s.mem z) :
    Tiled { s with mem := m, freeListp := p } (l ++ mid' ++ r) := by
  have hlx := hl.le
  have hxy := hmid'.le
  have hybrk := hr.le
  have hkeep : ∀ b ∈ l ++ mid ++ r, (b.bp + b.size ≤ x ∨ y ≤ b.bp) →
      Tagged { s with mem := m, freeListp := p } b := by
    intro b hb hside
    have hsized := (h.sized b hb).2
    have hbounds := (h.bounds hb).1
    refine (h.tagged b hb).congr ?_ rfl fun z hz ↦ hframe z ?_ (h.not_linksOf hroomy hb hz)
    · unfold DSIZE
      omega
    · unfold OnTag WSIZE DSIZE at *
      omega
  have hleft : ∀ b ∈ l, Tagged { s with mem := m, freeListp := p } b := fun b hb ↦
    hkeep b (by simp [hb]) (Or.inl (hl.bounds hb).2)
  have hright : ∀ b ∈ r, Tagged { s with mem := m, freeListp := p } b := fun b hb ↦
    hkeep b (by simp [hb]) (Or.inr (hr.bounds hb).1)
  have hlinks := fun z ↦ h.linksOf_bounds (x := z) hroomy
  refine ⟨⟨h.placed.pos, h.placed.aligned, h.placed.bound⟩, h.top,
    (hl.append hmid').append hr, ?_, fun b hb ↦ ?_, ?_, fun b hb ↦ ?_⟩
  · have hbp : s.prologue.bp = s.startBrk + 8 := rfl
    have hsize : s.prologue.size = 8 := rfl
    refine h.prologue.congr ?_ rfl fun z hz ↦ hframe z ?_ fun hlinks' ↦ ?_
    · unfold DSIZE
      omega
    · unfold OnTag WSIZE DSIZE at *
      omega
    · have hbounds := hlinks z hlinks'
      unfold OnTag WSIZE DSIZE at *
      omega
  · rcases List.mem_append.mp hb with hb | hb
    · exact (List.mem_append.mp hb).elim (hleft b) (htagged b)
    · exact hright b hb
  · have hsame : ∀ z, hdrp s.brk ≤ z → z < hdrp s.brk + WSIZE → m z = s.mem z := by
      intro z hle hlt
      unfold hdrp WSIZE at hle hlt
      refine hframe z ?_ fun hlinks' ↦ ?_
      · unfold WSIZE
        omega
      · have hbounds := hlinks z hlinks'
        unfold DSIZE at hbounds
        omega
    exact (get_congr (show State.startBrk { s with mem := m, freeListp := p } = s.startBrk from rfl)
      hsame).trans h.epilogue
  · rcases List.mem_append.mp hb with hb | hb
    · rcases List.mem_append.mp hb with hb | hb
      · exact h.sized b (by simp [hb])
      · exact hsized b hb
    · exact h.sized b (by simp [hb])

/-- The tiling does not depend on the links of listed blocks. -/
theorem Tiled.frame (h : Tiled s blocks) (hroomy : Roomy blocks fl)
    (hframe : ∀ z, ¬LinksOf fl z → m z = s.mem z) :
    Tiled { s with mem := m, freeListp := p } blocks := by
  have hr : Tiles Block.bp Block.size s.brk [] s.brk := rfl
  have hblocks : blocks = blocks ++ [] ++ [] := by simp
  rw [hblocks] at h hroomy ⊢
  have htiles : Tiles Block.bp Block.size (s.startBrk + 16) blocks s.brk := by simpa using h.tiles
  have hmid : Tiles Block.bp Block.size s.brk ([] : List Block) s.brk := rfl
  exact h.replace hroomy htiles hmid hr (by simp) (by simp) fun z _ hz ↦ hframe z hz

/-- `remove_from_free_list` in a tiled heap. -/
theorem Tiled.remove (h : Tiled s blocks) (hlinked : Linked s fl) (hroomy : Roomy blocks fl)
    (hx : x ∈ fl) : ∃ m p,
      removeFromFreeList s x = some { s with mem := m, freeListp := p } ∧
      Tiled { s with mem := m, freeListp := p } blocks ∧
      Linked { s with mem := m, freeListp := p } (fl.erase x) ∧
      ∀ z, ¬LinksOf fl z → m z = s.mem z := by
  obtain ⟨l, r, rfl⟩ := List.append_of_mem hx
  have hxl : x ∉ l := fun hl ↦
    (List.nodup_append.mp hlinked.nodup).2.2 x hl x List.mem_cons_self rfl
  obtain ⟨m, p, heq, hlinked', hframe⟩ :=
    removeFromFreeList_spec h.placed hlinked (h.cells hroomy)
  have hframe' : ∀ z, ¬LinksOf (l ++ x :: r) z → m z = s.mem z := fun z hz ↦
    hframe z fun hlinks ↦ hz (hlinks.mono (by simp))
  rw [List.erase_append_right _ hxl, List.erase_cons_head]
  exact ⟨m, p, heq, h.frame hroomy hframe', hlinked', hframe'⟩

/-- `add_to_free_list` in a tiled heap. -/
theorem Tiled.push (h : Tiled s blocks) (hlinked : Linked s fl) (hroomy : Roomy blocks (x :: fl))
    (hx : x ∉ fl) : ∃ m,
      addToFreeList s x = some { s with mem := m, freeListp := x } ∧
      Tiled { s with mem := m, freeListp := x } blocks ∧
      Linked { s with mem := m, freeListp := x } (x :: fl) ∧
      ∀ z, ¬LinksOf (x :: fl) z → m z = s.mem z := by
  obtain ⟨m, heq, hlinked', hframe⟩ :=
    addToFreeList_spec h.placed hlinked (h.cells hroomy) hx
  exact ⟨m, heq, h.frame hroomy hframe, hlinked', hframe⟩

/-! ### Writing tags -/

/-- The memory with a word in the header and the footer of a block. -/
def tagAt (m : Bytes) (bp size v : ℕ) : Bytes :=
  (m.store (hdrp bp) WSIZE v).store (bp + size - DSIZE) WSIZE v

/-- Only a header and a footer change. -/
theorem tagAt_frame (hbp : WSIZE ≤ q.bp) (hsize : DSIZE ≤ q.size) (hz : ¬OnTag q z) :
    tagAt m q.bp q.size v z = m z := by
  unfold OnTag WSIZE DSIZE at *
  unfold tagAt hdrp WSIZE DSIZE
  rw [Bytes.store_of_not_mem (by omega), Bytes.store_of_not_mem (by omega)]

/-- The header and the footer of a block that is written lie in the memory of `mem_init`. -/
structure Writable (s : State) (bp size : ℕ) : Prop where
  start : s.startBrk + WSIZE ≤ bp
  room : DSIZE ≤ size
  stop : bp + size ≤ s.startBrk + MAX_HEAP

theorem Writable.header (h : Writable s x n) : InArena s (hdrp x) WSIZE := by
  have hstart := h.start
  have hroom := h.room
  have hstop := h.stop
  unfold InArena hdrp WSIZE DSIZE at *
  omega

theorem Writable.footer (h : Writable s x n) : InArena s (x + n - DSIZE) WSIZE := by
  have hstart := h.start
  have hroom := h.room
  have hstop := h.stop
  unfold InArena WSIZE DSIZE at *
  omega

theorem put_eq (h : InArena s p WSIZE) (v : ℕ) :
    put s p v = some { s with mem := s.mem.store p WSIZE v } :=
  store_eq h v

/-- A word that has been written. -/
theorem get_put_self (h : InArena s p WSIZE) (hv : v < 2 ^ 32) :
    get { s with mem := s.mem.store p WSIZE v } p = some v := by
  have hpow : 256 ^ WSIZE = 2 ^ 32 := by decide
  rw [get_eq (s := { s with mem := s.mem.store p WSIZE v }) h, Bytes.load_store_self, hpow,
    Nat.mod_eq_of_lt hv]

/-- Another word. -/
theorem get_put_of_apart (h : y + WSIZE ≤ p ∨ p + WSIZE ≤ y) :
    get { s with mem := s.mem.store p WSIZE v } y = get s y := by
  simp only [get, load, InArena, Bytes.load_store_of_apart h]

/-- The footer is found through the header just written. -/
theorem ftrp_put (h : Writable s x n) (hv : v / 8 * 8 = n) (hlt : v < 2 ^ 32) :
    ftrp { s with mem := s.mem.store (hdrp x) WSIZE v } x = some (x + n - DSIZE) := by
  rw [ftrp, getSize, get_put_self h.header hlt, Option.map_some, Option.map_some, hv]

/-- Writing a header and the footer that it leads to. -/
theorem putTags_bind {Result : Type} (h : Writable s x n) (hv : v / 8 * 8 = n) (hlt : v < 2 ^ 32)
    (k : State → Option Result) :
    ((put s (hdrp x) v).bind fun s ↦ (ftrp s x).bind fun p ↦ (put s p v).bind k) =
      k { s with mem := tagAt s.mem x n v } := by
  rw [put_eq h.header, Option.bind_some, ftrp_put h hv hlt, Option.bind_some,
    put_eq (s := { s with mem := s.mem.store (hdrp x) WSIZE v }) h.footer, Option.bind_some]
  rfl

theorem tag_lt (hsize : b.size % 8 = 0) (hlt : b.size ≤ MAX_HEAP) : b.tag < 2 ^ 32 := by
  have hbit := b.alloc.toNat_lt
  have hmax : MAX_HEAP < 2 ^ 31 := by decide
  rw [tag_eq hsize]
  omega

/-- A block is tagged by writing its tags. -/
theorem tagged_tagAt (h : Writable s q.bp q.size) (hsize : q.size % 8 = 0) :
    Tagged { s with mem := tagAt s.mem q.bp q.size q.tag } q := by
  have hstart := h.start
  have hroom := h.room
  have hstop := h.stop
  have hlt : q.tag < 2 ^ 32 := tag_lt hsize (by omega)
  refine ⟨?_, ?_⟩
  · refine (get_put_of_apart (s := { s with mem := s.mem.store (hdrp q.bp) WSIZE q.tag })
      ?_).trans (get_put_self h.header hlt)
    unfold hdrp WSIZE DSIZE at *
    omega
  · exact get_put_self (s := { s with mem := s.mem.store (hdrp q.bp) WSIZE q.tag }) h.footer hlt

/-- A block that takes the place of others has its tags in the heap. -/
theorem Tiled.writable (h : Tiled s (l ++ mid ++ r))
    (hmid : Tiles Block.bp Block.size q.bp mid (q.bp + q.size)) (hne : mid ≠ [])
    (hsize : 16 ≤ q.size) : Writable s q.bp q.size := by
  obtain ⟨hl, hr⟩ := h.tiles.cut hmid hne
  have hlx := hl.le
  have hybrk := hr.le
  have htop := h.top
  refine ⟨?_, ?_, by omega⟩
  · unfold WSIZE
    omega
  · unfold DSIZE
    omega

/-- Tagging a block that takes the place of others. -/
theorem Tiled.retag (h : Tiled s (l ++ mid ++ r))
    (hmid : Tiles Block.bp Block.size q.bp mid (q.bp + q.size)) (hne : mid ≠ [])
    (hsized : q.size % 8 = 0 ∧ 16 ≤ q.size) :
    Tiled { s with mem := tagAt s.mem q.bp q.size q.tag } (l ++ [q] ++ r) := by
  obtain ⟨hl, hr⟩ := h.tiles.cut hmid hne
  have hlx := hl.le
  have hybrk := hr.le
  have hwritable := h.writable hmid hne hsized.2
  have hroomy : Roomy (l ++ mid ++ r) [] := fun c hc ↦ absurd hc List.not_mem_nil
  refine h.replace (p := s.freeListp) hroomy hl ⟨rfl, rfl⟩ hr ?_ ?_ fun z hz _ ↦ ?_
  · intro b hb
    rw [List.mem_singleton.mp hb]
    exact tagged_tagAt hwritable hsized.1
  · intro b hb
    rw [List.mem_singleton.mp hb]
    exact hsized
  · refine tagAt_frame ?_ hwritable.room ?_
    · unfold WSIZE
      omega
    · unfold OnTag WSIZE DSIZE at *
      omega

/-- Writing the tags of such a block. -/
theorem Tiled.putTags {Result : Type} (h : Tiled s (l ++ mid ++ r))
    (hmid : Tiles Block.bp Block.size q.bp mid (q.bp + q.size)) (hne : mid ≠ [])
    (hsized : q.size % 8 = 0 ∧ 16 ≤ q.size) (k : State → Option Result) :
    ((put s (hdrp q.bp) q.tag).bind fun s ↦
        (MallocLab.ftrp s q.bp).bind fun p ↦ (put s p q.tag).bind k) =
      k { s with mem := tagAt s.mem q.bp q.size q.tag } := by
  have hwritable := h.writable hmid hne hsized.2
  have hle := hwritable.start
  have hstop := hwritable.stop
  exact putTags_bind hwritable (tag_size hsized.1) (tag_lt hsized.1 (by omega)) k

/-- Tagging a block leaves the free list alone. -/
theorem Tiled.linked_retag (h : Tiled { s with mem := tagAt s.mem q.bp q.size q.tag } blocks)
    (hq : q ∈ blocks) (hlinked : Linked s fl) (hroomy : Roomy blocks fl) :
    Linked { s with mem := tagAt s.mem q.bp q.size q.tag } fl := by
  have hbounds := (h.bounds hq).1
  have hsized := (h.sized q hq).2
  refine hlinked.frame (fun x hx ↦ tagAt_frame ?_ ?_ fun htag ↦ ?_) s.brk
  · unfold WSIZE
    omega
  · unfold DSIZE
    omega
  · exact h.not_linksOf hroomy hq htag hx

end Jungle.MallocLab
