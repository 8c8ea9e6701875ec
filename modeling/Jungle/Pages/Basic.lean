import Jungle.Bitmap.Basic

/-!
# The page allocator of the kernel

`pintos/threads/palloc.c`. Two pools of pages, each with a bitmap of its used pages, which is in the
memory that the allocator hands out, too. The locks of the pools are left out. A failed `ASSERT`, a
`NOT_REACHED` and a `PANIC` are `none`.
-/

set_option autoImplicit false
set_option relaxedAutoImplicit false

namespace Jungle.Pages

open Jungle.Lib Jungle.Bitmap

/-- `PGSIZE` -/
def PGSIZE : ℕ := 4096

/-- `pg_no(va)` -/
def pgNo (va : ℕ) : ℕ := va / PGSIZE

/-- `pg_ofs(va)` -/
def pgOfs (va : ℕ) : ℕ := va % PGSIZE

/-- `struct pool` -/
structure Pool where
  usedMap : ℕ
  base : ℕ

/-- `kernel_pool` and `user_pool`. -/
structure Pools where
  kernelPool : Pool
  userPool : Pool

/-- `enum palloc_flags` -/
structure PallocFlags where
  assert : Bool
  zero : Bool
  user : Bool

/-- The pool that `PAL_USER` selects. -/
def Pools.pool (pools : Pools) (user : Bool) : Pool :=
  if user then pools.userPool else pools.kernelPool

/-- The bytes of the whole pages that the bitmap of a pool takes. -/
def bmPages (pgcnt : ℕ) : ℕ := (bitmapBufSize pgcnt + PGSIZE - 1) / PGSIZE * PGSIZE

/-- `init_pool(p, bm_base, start, end)`: the pool, the next `bm_base` and the memory. -/
def initPool (mem : Memory) (bmBase start finish : ℕ) : Option (Pool × ℕ × Memory) := do
  let pgcnt := (finish - start) / PGSIZE
  let mem ← bitmapCreateInBuf mem pgcnt bmBase (bmPages pgcnt)
  let mem ← bitmapSetAll mem bmBase true
  return (⟨bmBase, start⟩, bmBase + bmPages pgcnt, mem)

/-- `page_from_pool(pool, page)` -/
def pageFromPool (mem : Memory) (pool : Pool) (page : ℕ) : Bool :=
  pgNo pool.base ≤ pgNo page && pgNo page < pgNo pool.base + bitmapSize mem pool.usedMap

/-- `palloc_get_multiple(flags, page_cnt)`: the pages and the memory. -/
def pallocGetMultiple (pools : Pools) (mem : Memory) (flags : PallocFlags) (pageCnt : ℕ) :
    Option (ℕ × Memory) := do
  let pool := pools.pool flags.user
  let (pageIdx, mem) ← bitmapScanAndFlip mem pool.usedMap 0 pageCnt false
  let pages := if pageIdx ≠ BITMAP_ERROR then pool.base + PGSIZE * pageIdx else 0
  if pages ≠ 0 then
    return (pages, if flags.zero then mem.fill pages (PGSIZE * pageCnt) 0 else mem)
  else if flags.assert then none
  else return (0, mem)

/-- The pool from which pages are. -/
def poolOf (pools : Pools) (mem : Memory) (pages : ℕ) : Option Pool :=
  if pageFromPool mem pools.kernelPool pages then some pools.kernelPool
  else if pageFromPool mem pools.userPool pages then some pools.userPool
  else none

/-- `palloc_free_multiple(pages, page_cnt)` -/
def pallocFreeMultiple (pools : Pools) (mem : Memory) (pages pageCnt : ℕ) : Option Memory := do
  if pgOfs pages ≠ 0 then none
  else if pages = 0 ∨ pageCnt = 0 then return mem
  else
    let pool ← poolOf pools mem pages
    let pageIdx := pgNo pages - pgNo pool.base
    let mem := mem.fill pages (PGSIZE * pageCnt) 0xcccccccccccccccc
    if ← bitmapAll mem pool.usedMap pageIdx pageCnt then
      bitmapSetMultiple mem pool.usedMap pageIdx pageCnt false
    else none

/-- The ranges of the pools, the place of their bitmaps and the usable pages, as pool, index and
number of pages. -/
structure Setup where
  kernelStart : ℕ
  kernelEnd : ℕ
  userStart : ℕ
  userEnd : ℕ
  bmBase : ℕ
  usable : List (Bool × ℕ × ℕ)

/-- The loop that makes the usable pages free. -/
def freeUsable (pools : Pools) : List (Bool × ℕ × ℕ) → Memory → Option Memory
  | [], mem => some mem
  | (user, pageIdx, pageCnt) :: rest, mem => do
    let mem ← bitmapSetMultiple mem (pools.pool user).usedMap pageIdx pageCnt false
    freeUsable pools rest mem

/-- The calls of `populate_pools` that make the pools. -/
def initialise (mem : Memory) (setup : Setup) : Option (Pools × Memory) := do
  let (kernelPool, bmBase, mem) ← initPool mem setup.bmBase setup.kernelStart setup.kernelEnd
  let (userPool, _, mem) ← initPool mem bmBase setup.userStart setup.userEnd
  let mem ← freeUsable ⟨kernelPool, userPool⟩ setup.usable mem
  return (⟨kernelPool, userPool⟩, mem)

end Jungle.Pages
