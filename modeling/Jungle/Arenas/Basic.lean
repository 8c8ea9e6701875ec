import Jungle.KernelList.Runs
import Jungle.Pages.Basic

/-!
# The block allocator of the kernel

`pintos/threads/malloc.c`. The `free_elem` of a free block is a cell of a kernel list at the address of
the block; the pages that the allocator has, and the heads and tails of its lists, are the memory that
can hold cells. The headers of the arenas and the bytes of the blocks are kept beside them: that blocks,
headers and cells do not overlap is proved, not assumed. `palloc` is what `palloc_get_multiple` returns
for a number of pages, and `palloc_get_page` for one. A call faults, with `none`, where an `ASSERT`
fails. The locks of the descriptors are left out. Sizes are `size_t`.
-/

set_option autoImplicit false
set_option relaxedAutoImplicit false

namespace Jungle.Arenas

open Jungle.Lib Jungle.KernelList Jungle.Pages

/-- The number of values of a `size_t`. -/
def sizeMod : ℕ := 2 ^ 64

/-- `sizeof (struct arena)` -/
def arenaSize : ℕ := 24

/-- `pg_round_down (va)` -/
def pgRoundDown (va : ℕ) : ℕ := va - pgOfs va

/-- `struct desc`, without its list and its lock. -/
structure Desc where
  blockSize : ℕ
  blocksPerArena : ℕ
deriving DecidableEq, Repr

/-- The loop of `malloc_init`, for at most so many descriptors. -/
def initDescs : ℕ → ℕ → List Desc
  | 0, _ => []
  | fuel + 1, blockSize =>
    if blockSize < PGSIZE / 2 then
      ⟨blockSize, (PGSIZE - arenaSize) / blockSize⟩ :: initDescs fuel (blockSize * 2)
    else []

/-- `descs`, after `malloc_init`. -/
def descs : List Desc := initDescs 10 16

/-- A descriptor. -/
abbrev DescId := Fin descs.length

/-- The descriptor with an index. -/
def desc (d : DescId) : Desc := descs.get d

/-- `ARENA_MAGIC` -/
def arenaMagic : ℕ := 0x9a548eed

/-- `struct arena` -/
structure Arena where
  magic : ℕ
  desc : Option DescId
  freeCnt : ℕ
deriving DecidableEq

/-- The cells of the free lists, the headers of the arenas, the bytes of the blocks, and the pages that
have been given back, as first page and number. -/
structure State where
  elems : Elems
  arenas : Store Arena
  bytes : ℕ → UInt8
  returned : List (ℕ × ℕ)

/-- The addresses of some bytes. -/
def InRange (start size a : ℕ) : Prop := start ≤ a ∧ a < start + size

instance (start size a : ℕ) : Decidable (InRange start size a) := by
  unfold InRange
  infer_instance

/-- The pages that `palloc_get_multiple` returns can hold cells. -/
def getPages (s : State) (a cnt : ℕ) : State :=
  { s with elems := fun x ↦ if InRange a (PGSIZE * cnt) x then some ⟨none, none⟩ else s.elems x }

/-- `memset (start, value, size)` -/
def fill (bytes : ℕ → UInt8) (start size : ℕ) (value : UInt8) : ℕ → UInt8 := fun x ↦
  if InRange start size x then value else bytes x

/-- `memcpy (dst, src, size)` -/
def copy (bytes : ℕ → UInt8) (dst src size : ℕ) : ℕ → UInt8 := fun x ↦
  if InRange dst size x then bytes (x - dst + src) else bytes x

/-- `palloc_free_multiple (a, cnt)` -/
def freePages (s : State) (a cnt : ℕ) : State where
  elems x := if InRange a (PGSIZE * cnt) x then none else s.elems x
  arenas := s.arenas.free a
  bytes := fill s.bytes a (PGSIZE * cnt) 0xcc
  returned := s.returned ++ [(a, cnt)]

/-- `block_to_arena (b)`: the arena and its header. -/
def blockToArena (s : State) (b : ℕ) : Option (ℕ × Arena) := do
  let a := pgRoundDown b
  assert (a ≠ 0)
  let arena ← s.arenas a
  assert (arena.magic = arenaMagic)
  match arena.desc with
  | some d =>
    assert ((pgOfs b + sizeMod - arenaSize) % sizeMod % (desc d).blockSize = 0)
    return (a, arena)
  | none =>
    assert (pgOfs b = arenaSize)
    return (a, arena)

/-- The address of a block in an arena of a descriptor. -/
def blockAt (a : ℕ) (d : DescId) (idx : ℕ) : ℕ := a + arenaSize + idx * (desc d).blockSize

/-- `arena_to_block (a, idx)`, for an arena of a descriptor -/
def arenaToBlock (s : State) (a : ℕ) (d : DescId) (idx : ℕ) : Option ℕ := do
  assert (a ≠ 0)
  let arena ← s.arenas a
  assert (arena.magic = arenaMagic)
  assert (idx < (desc d).blocksPerArena)
  return blockAt a d idx

section

variable (lists : DescId → KList)

/-- The lists of `malloc_init`. -/
def mallocInit (m : Elems) : Option Elems := initLists lists m (List.finRange descs.length)

/-- Makes an arena of a page and puts its blocks on the free list. -/
def newArena (s : State) (d : DescId) (a : ℕ) : Option State :=
  let s := getPages s a 1
  let s := { s with arenas := s.arenas.put a ⟨arenaMagic, some d, (desc d).blocksPerArena⟩ }
  (List.range (desc d).blocksPerArena).foldlM (fun s i ↦ do
    let b ← arenaToBlock s a d i
    let m ← listPushBack s.elems (lists d) b
    return { s with elems := m }) s

/-- Takes a block off the free list. -/
def takeBlock (s : State) (d : DescId) : Option (ℕ × State) := do
  let (b, m) ← listPopFront s.elems (lists d)
  let s := { s with elems := m }
  let (a, arena) ← blockToArena s b
  return (b, { s with
    arenas := s.arenas.put a { arena with freeCnt := (arena.freeCnt + sizeMod - 1) % sizeMod } })

/-- `DIV_ROUND_UP (size + sizeof *a, PGSIZE)` -/
def bigPages (size : ℕ) : ℕ := (size + arenaSize + PGSIZE - 1) % sizeMod / PGSIZE

/-- `malloc (size)`: the block, if any, and the state. -/
def malloc (palloc : ℕ → Option ℕ) (s : State) (size : ℕ) : Option (Option ℕ × State) :=
  if size = 0 then some (none, s)
  else
    match descs.findFinIdx? (fun d ↦ decide (size ≤ d.blockSize)) with
    | none =>
      match palloc (bigPages size) with
      | none => some (none, s)
      | some a =>
        let s := getPages s a (bigPages size)
        some (some (a + arenaSize),
          { s with arenas := s.arenas.put a ⟨arenaMagic, none, bigPages size⟩ })
    | some d => do
      if ← listEmpty s.elems (lists d) then
        match palloc 1 with
        | none => return (none, s)
        | some a =>
          let s ← newArena lists s d a
          let (b, s) ← takeBlock lists s d
          return (some b, s)
      else
        let (b, s) ← takeBlock lists s d
        return (some b, s)

/-- `block_size (block)` -/
def blockSize (s : State) (block : ℕ) : Option ℕ := do
  let (_, arena) ← blockToArena s block
  match arena.desc with
  | some d => return (desc d).blockSize
  | none => return (PGSIZE * arena.freeCnt + sizeMod - pgOfs block) % sizeMod

/-- Removes the blocks of an arena from the free list. -/
def removeBlocks (s : State) (a : ℕ) (d : DescId) : Option State :=
  (List.range (desc d).blocksPerArena).foldlM (fun s i ↦ do
    let b ← arenaToBlock s a d i
    let (_, m) ← listRemove s.elems b
    return { s with elems := m }) s

/-- `free (p)` -/
def free (s : State) (p : Option ℕ) : Option State :=
  match p with
  | none => some s
  | some b => do
    let (a, arena) ← blockToArena s b
    match arena.desc with
    | some d =>
      let s := { s with bytes := fill s.bytes b (desc d).blockSize 0xcc }
      let m ← listPushFront s.elems (lists d) b
      let arena := { arena with freeCnt := (arena.freeCnt + 1) % sizeMod }
      let s := { s with elems := m, arenas := s.arenas.put a arena }
      if (desc d).blocksPerArena ≤ arena.freeCnt then
        assert (arena.freeCnt = (desc d).blocksPerArena)
        let s ← removeBlocks s a d
        return freePages s a 1
      else return s
    | none => return freePages s a arena.freeCnt

/-- `realloc (old_block, new_size)`: the block, if any, and the state. -/
def realloc (palloc : ℕ → Option ℕ) (s : State) (oldBlock : Option ℕ) (newSize : ℕ) :
    Option (Option ℕ × State) :=
  if newSize = 0 then (free lists s oldBlock).map (none, ·)
  else do
    let (newBlock, s) ← malloc lists palloc s newSize
    match oldBlock, newBlock with
    | some old, some new =>
      let oldSize ← blockSize s old
      let minSize := if newSize < oldSize then newSize else oldSize
      let s ← free lists { s with bytes := copy s.bytes new old minSize } (some old)
      return (newBlock, s)
    | _, _ => return (newBlock, s)

end

end Jungle.Arenas
