import Jungle.Arenas.Basic
import Mathlib.Data.Finset.Card
import Mathlib.Data.Finset.Range

/-!
# Arenas and their blocks

What kind of arena a page starts, where its blocks are, and what it means that the free lists and the
live blocks make up the arenas (`Consistent`). The kinds of the arenas say how the pages are laid out;
the counters of free blocks are kept apart, since they alone change while an arena lives.
-/

set_option autoImplicit false
set_option relaxedAutoImplicit false

namespace Jungle.Arenas

open Jungle.Lib Jungle.KernelList Jungle.Pages

/-! ### Descriptors -/

/-- The sizes of the blocks of a descriptor: they hold a list element, divide the number of values of a
`size_t`, and fit into a page behind the header of the arena. -/
theorem desc_spec (d : DescId) : 16 ≤ (desc d).blockSize ∧ sizeMod % (desc d).blockSize = 0 ∧
    0 < (desc d).blocksPerArena ∧ (desc d).blocksPerArena < sizeMod ∧
    arenaSize + (desc d).blocksPerArena * (desc d).blockSize ≤ PGSIZE := by
  revert d
  decide

/-- The end of a block is in its page. -/
theorem block_end {d : DescId} {i : ℕ} (hi : i < (desc d).blocksPerArena) :
    arenaSize + i * (desc d).blockSize + (desc d).blockSize ≤ PGSIZE := by
  have hle := Nat.mul_le_mul_right (desc d).blockSize (Nat.succ_le_of_lt hi)
  rw [Nat.succ_mul] at hle
  have hfit := (desc_spec d).2.2.2.2
  omega

/-! ### Addresses of blocks -/

variable {a a' : ℕ} {d d' : DescId} {i j : ℕ}

theorem blockAt_inRange (hi : i < (desc d).blocksPerArena) {x : ℕ}
    (hx : InRange (blockAt a d i) (desc d).blockSize x) : InRange a PGSIZE x := by
  have hend := block_end hi
  simp only [InRange, blockAt] at hx ⊢
  omega

theorem blockAt_self (a : ℕ) (d : DescId) (i : ℕ) :
    InRange (blockAt a d i) (desc d).blockSize (blockAt a d i) := by
  have hpos := (desc_spec d).1
  simp only [InRange]
  omega

/-- The offset of a block in its page. -/
theorem pgOfs_blockAt (ha : a % PGSIZE = 0) (hi : i < (desc d).blocksPerArena) :
    pgOfs (blockAt a d i) = arenaSize + i * (desc d).blockSize := by
  have hend := block_end hi
  have hpos := (desc_spec d).1
  rw [pgOfs, blockAt, Nat.add_assoc, Nat.add_mod, ha, Nat.zero_add, Nat.mod_mod]
  exact Nat.mod_eq_of_lt (by omega)

theorem pgRoundDown_blockAt (ha : a % PGSIZE = 0) (hi : i < (desc d).blocksPerArena) :
    pgRoundDown (blockAt a d i) = a := by
  rw [pgRoundDown, pgOfs_blockAt ha hi, blockAt, Nat.add_assoc, Nat.add_sub_cancel]

theorem pgOfs_big (ha : a % PGSIZE = 0) : pgOfs (a + arenaSize) = arenaSize := by
  rw [pgOfs, Nat.add_mod, ha, Nat.zero_add, Nat.mod_mod]
  rfl

theorem pgRoundDown_big (ha : a % PGSIZE = 0) : pgRoundDown (a + arenaSize) = a := by
  rw [pgRoundDown, pgOfs_big ha, Nat.add_sub_cancel]

/-- Two blocks of an arena do not overlap. -/
theorem blockAt_apart (hij : i ≠ j) {x : ℕ} (hx : InRange (blockAt a d i) (desc d).blockSize x) :
    ¬InRange (blockAt a d j) (desc d).blockSize x := by
  simp only [InRange, blockAt] at hx ⊢
  rcases Nat.lt_or_gt_of_ne hij with hlt | hlt
  · have hle := Nat.mul_le_mul_right (desc d).blockSize (Nat.succ_le_of_lt hlt)
    rw [Nat.succ_mul] at hle
    omega
  · have hle := Nat.mul_le_mul_right (desc d).blockSize (Nat.succ_le_of_lt hlt)
    rw [Nat.succ_mul] at hle
    omega

theorem blockAt_inj (heq : blockAt a d i = blockAt a d j) : i = j := by
  by_contra hij
  exact blockAt_apart hij (blockAt_self a d i) (heq ▸ blockAt_self a d i)

/-! ### The layout -/

/-- A block that has been handed out, and the size that was asked for. -/
structure Block where
  addr : ℕ
  size : ℕ
deriving DecidableEq, Repr

/-- The number of pages of an arena. -/
def Arena.pages (arena : Arena) : ℕ := if arena.desc.isSome then 1 else arena.freeCnt

/-- The descriptor of an arena, if it is one of small blocks, and its number of pages. -/
def Arena.kind (arena : Arena) : Option DescId × ℕ := (arena.desc, arena.pages)

/-- The kind of the arena that starts at an address. -/
abbrev Kinds := ℕ → Option (Option DescId × ℕ)

def State.kinds (s : State) : Kinds := fun a ↦ (s.arenas a).map Arena.kind

/-- Arenas are made of whole pages of their own, which can hold cells. -/
structure Layout (lists : DescId → KList) (elems : Elems) (kinds : Kinds) : Prop where
  page : ∀ a d n, kinds a = some (d, n) → a % PGSIZE = 0 ∧ a ≠ 0
  small : ∀ a d n, kinds a = some (some d, n) → n = 1
  big : ∀ a n, kinds a = some (none, n) → 0 < n ∧ PGSIZE * n < sizeMod
  memory : ∀ a d n, kinds a = some (d, n) → ∀ x, InRange a (PGSIZE * n) x → (elems x).isSome
  headers : ∀ a d n, kinds a = some (d, n) → ∀ x, InRange a (PGSIZE * n) x →
    ∀ e, x ≠ (lists e).head ∧ x ≠ (lists e).tail
  apart : ∀ a d n a' d' n', kinds a = some (d, n) → kinds a' = some (d', n') → a ≠ a' →
    ∀ x, InRange a (PGSIZE * n) x → ¬InRange a' (PGSIZE * n') x

/-- A live block is in an arena, and the size asked for fits. -/
def Fits (kinds : Kinds) (b : Block) : Prop :=
  (∃ a d n i, kinds a = some (some d, n) ∧ i < (desc d).blocksPerArena ∧ b.addr = blockAt a d i ∧
    b.size ≤ (desc d).blockSize) ∨
  ∃ a n, kinds a = some (none, n) ∧ b.addr = a + arenaSize ∧ b.size + arenaSize ≤ PGSIZE * n

/-- A block of an arena of small blocks is either free or live. -/
structure Blocks (kinds : Kinds) (live : List Block) (Q : DescId → List ℕ) : Prop where
  free : ∀ a d n, kinds a = some (some d, n) → ∀ i < (desc d).blocksPerArena,
    (blockAt a d i ∈ Q d ↔ blockAt a d i ∉ live.map Block.addr)
  freeBlocks : ∀ d, ∀ b ∈ Q d, ∃ a n i, kinds a = some (some d, n) ∧
    i < (desc d).blocksPerArena ∧ b = blockAt a d i
  liveBlocks : ∀ b ∈ live, 0 < b.size ∧ Fits kinds b
  bigBlocks : ∀ a n, kinds a = some (none, n) → a + arenaSize ∈ live.map Block.addr
  nodup : (live.map Block.addr).Nodup

/-- The number of free blocks of an arena. -/
def freeCount (Q : DescId → List ℕ) (a : ℕ) (d : DescId) : ℕ :=
  ((Finset.range (desc d).blocksPerArena).filter fun i ↦ blockAt a d i ∈ Q d).card

/-- The free lists and the live blocks make up the arenas, and the counters are right. -/
structure Consistent (lists : DescId → KList) (s : State) (live : List Block)
    (Q : DescId → List ℕ) : Prop where
  holds : Holds lists s.elems Q
  layout : Layout lists s.elems s.kinds
  blocks : Blocks s.kinds live Q
  magic : ∀ a arena, s.arenas a = some arena → arena.magic = arenaMagic
  count : ∀ a arena d, s.arenas a = some arena → arena.desc = some d →
    arena.freeCnt = freeCount Q a d

variable {lists : DescId → KList} {s : State} {live : List Block} {Q : DescId → List ℕ}
  {kinds : Kinds} {elems : Elems} {n n' : ℕ}

theorem kinds_small {arena : Arena} (h : s.arenas a = some arena) (hd : arena.desc = some d) :
    s.kinds a = some (some d, 1) := by
  rw [State.kinds, h, Option.map_some, Arena.kind, Arena.pages, hd]
  rfl

theorem kinds_big {arena : Arena} (h : s.arenas a = some arena) (hd : arena.desc = none) :
    s.kinds a = some (none, arena.freeCnt) := by
  rw [State.kinds, h, Option.map_some, Arena.kind, Arena.pages, hd]
  rfl

theorem exists_arena {k : Option DescId × ℕ} (h : s.kinds a = some k) :
    ∃ arena, s.arenas a = some arena ∧ arena.kind = k :=
  Option.map_eq_some_iff.mp h

namespace Layout

variable (h : Layout lists elems kinds)

include h

/-- The pages of an arena of small blocks. -/
theorem small_range (ha : kinds a = some (some d, n)) : PGSIZE * n = PGSIZE := by
  rw [h.small a d n ha, Nat.mul_one]

/-- Arenas with a common address are the same. -/
theorem unique {e e' : Option DescId} (ha : kinds a = some (e, n)) (ha' : kinds a' = some (e', n'))
    {x : ℕ} (hx : InRange a (PGSIZE * n) x) (hx' : InRange a' (PGSIZE * n') x) : a = a' := by
  by_contra hne
  exact h.apart a e n a' e' n' ha ha' hne x hx hx'

/-- The addresses of a block are in its arena. -/
theorem block_range (ha : kinds a = some (some d, n)) (hi : i < (desc d).blocksPerArena) {x : ℕ}
    (hx : InRange (blockAt a d i) (desc d).blockSize x) : InRange a (PGSIZE * n) x := by
  rw [h.small_range ha]
  exact blockAt_inRange hi hx

/-- Where a block is says which one it is. -/
theorem blockAt_unique (ha : kinds a = some (some d, n)) (ha' : kinds a' = some (some d', n'))
    (hi : i < (desc d).blocksPerArena) (hj : j < (desc d').blocksPerArena)
    (heq : blockAt a d i = blockAt a' d' j) : a = a' ∧ d = d' ∧ i = j := by
  obtain rfl : a = a' := h.unique ha ha' (h.block_range ha hi (blockAt_self a d i))
    (heq ▸ h.block_range ha' hj (blockAt_self a' d' j))
  obtain rfl : d = d' := by
    have hsame := Option.some.inj (ha.symm.trans ha')
    exact Option.some.inj (congrArg Prod.fst hsame)
  exact ⟨rfl, rfl, blockAt_inj heq⟩

/-- A small block is not a big one. -/
theorem blockAt_ne_big (ha : kinds a = some (some d, n)) (ha' : kinds a' = some (none, n'))
    (hi : i < (desc d).blocksPerArena) : blockAt a d i ≠ a' + arenaSize := by
  intro heq
  have hbig := h.big a' n' ha'
  have hrange : InRange a' (PGSIZE * n') (a' + arenaSize) := by
    simp only [InRange, arenaSize, PGSIZE]
    omega
  obtain rfl : a = a' := h.unique ha ha' (h.block_range ha hi (blockAt_self a d i)) (heq ▸ hrange)
  have hsame := Option.some.inj (ha.symm.trans ha')
  exact absurd (congrArg Prod.fst hsame) (Option.some_ne_none d)

end Layout

/-- `block_to_arena` of a small block -/
theorem blockToArena_small (hs : Consistent lists s live Q) {arena : Arena}
    (h : s.arenas a = some arena) (hd : arena.desc = some d) (hi : i < (desc d).blocksPerArena) :
    blockToArena s (blockAt a d i) = some (a, arena) := by
  have hpage := hs.layout.page a _ _ (kinds_small h hd)
  have hmagic := hs.magic a arena h
  have hoffset : (pgOfs (blockAt a d i) + sizeMod - arenaSize) % sizeMod % (desc d).blockSize =
      0 := by
    have hend := block_end hi
    have hsmall : i * (desc d).blockSize < sizeMod :=
      Nat.lt_of_le_of_lt (by omega : _ ≤ PGSIZE) (by decide)
    have hsum : arenaSize + i * (desc d).blockSize + sizeMod - arenaSize =
        i * (desc d).blockSize + sizeMod := by omega
    rw [pgOfs_blockAt hpage.1 hi, hsum, Nat.add_mod_right, Nat.mod_eq_of_lt hsmall,
      Nat.mul_mod_left]
  simp [blockToArena, pgRoundDown_blockAt hpage.1 hi, hpage.2, h, hmagic, hd, hoffset,
    assert_true]

/-- `block_to_arena` of a big block -/
theorem blockToArena_big (hs : Consistent lists s live Q) {arena : Arena}
    (h : s.arenas a = some arena) (hd : arena.desc = none) :
    blockToArena s (a + arenaSize) = some (a, arena) := by
  have hpage := hs.layout.page a _ _ (kinds_big h hd)
  have hmagic := hs.magic a arena h
  simp [blockToArena, pgRoundDown_big hpage.1, hpage.2, h, hmagic, hd, pgOfs_big hpage.1,
    assert_true]

end Jungle.Arenas
