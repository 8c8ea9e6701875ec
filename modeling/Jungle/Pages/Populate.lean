import Jungle.Pages.Basic

/-!
# How the pools are populated

`resolve_area_info` and `populate_pools` of `pintos/threads/palloc.c`. The entries of the memory map are
read twice: a machine with four states (`poolStep`) cuts them into the kernel pool and the user pool, and a
second loop makes their pages free (`markRegion`), going on in the other pool where one ends. Only
differences of addresses wrap around.
-/

set_option autoImplicit false
set_option relaxedAutoImplicit false

namespace Jungle.Pages

open Jungle.Lib Jungle.Bitmap

/-- `KERN_BASE` -/
def KERN_BASE : ℕ := 0x8004000000

/-- `BASE_MEM_THRESHOLD` -/
def BASE_MEM_THRESHOLD : ℕ := 0x100000

/-- `USABLE` -/
def USABLE : ℕ := 1

/-- `ACPI_RECLAIMABLE` -/
def ACPI_RECLAIMABLE : ℕ := 3

/-- `pg_round_up(va)` -/
def pgRoundUp (va : ℕ) : ℕ := (va + PGSIZE - 1) / PGSIZE * PGSIZE

/-- `struct e820_entry`, with its halves put together by `APPEND_HILO`. -/
structure E820Entry where
  mem : ℕ
  len : ℕ
  type : ℕ
deriving DecidableEq, Repr

/-- An entry that the loops do not pass over. -/
def E820Entry.isUsable (entry : E820Entry) : Bool :=
  entry.type == ACPI_RECLAIMABLE || entry.type == USABLE

/-! ### `resolve_area_info` -/

/-- `struct area` -/
structure AreaInfo where
  start : ℕ
  finish : ℕ
  size : ℕ
deriving DecidableEq, Repr

/-- An entry is added to an area. -/
def AreaInfo.extend (area : AreaInfo) (entry : E820Entry) : AreaInfo :=
  if area.size = 0 then ⟨entry.mem, entry.mem + entry.len, entry.len⟩
  else ⟨min area.start entry.mem, max area.finish (entry.mem + entry.len), area.size + entry.len⟩

/-- An entry is added to `base_mem` or to `ext_mem`. -/
def resolveEntry (areas : AreaInfo × AreaInfo) (entry : E820Entry) : AreaInfo × AreaInfo :=
  if entry.mem < BASE_MEM_THRESHOLD then (areas.1.extend entry, areas.2)
  else (areas.1, areas.2.extend entry)

/-- `resolve_area_info(base_mem, ext_mem)` for areas that are zero. -/
def resolveAreaInfo (entries : List E820Entry) : AreaInfo × AreaInfo :=
  (entries.filter E820Entry.isUsable).foldl resolveEntry (⟨0, 0, 0⟩, ⟨0, 0, 0⟩)

/-! ### The pools -/

/-- A usable region of memory, at its kernel address. -/
structure Region where
  start : ℕ
  size : ℕ
deriving DecidableEq, Repr

/-- The end of a region. -/
def Region.finish (r : Region) : ℕ := r.start + r.size

/-- The pages of a region. -/
def Region.pages (r : Region) : ℕ := r.size / PGSIZE

/-- The regions of a memory map. -/
def regions (entries : List E820Entry) : List Region :=
  (entries.filter E820Entry.isUsable).map fun entry ↦ ⟨entry.mem + KERN_BASE, entry.len⟩

/-- `state` -/
inductive PoolState
  | kernStart
  | kern
  | userStart
  | user
deriving DecidableEq, Repr

/-- What the first loop of `populate_pools` changes. -/
structure Walk where
  state : PoolState
  rem : ℕ
  regionStart : ℕ
  finish : ℕ
  kernelPool : Pool
  freeStart : ℕ
  mem : Memory

/-- The switch in the first loop. -/
def poolSwitch (userPages : ℕ) (w : Walk) (r : Region) : Option Walk :=
  match w.state with
  | .kernStart => none
  | .kern =>
    if r.pages < w.rem then some { w with rem := w.rem - r.pages }
    else do
      let (kernelPool, freeStart, mem) ←
        initPool w.mem w.freeStart w.regionStart (r.start + w.rem * PGSIZE)
      let w := { w with kernelPool := kernelPool, freeStart := freeStart, mem := mem }
      if w.rem = r.pages then return { w with rem := userPages, state := .userStart }
      else return { w with
        regionStart := r.start + w.rem * PGSIZE
        rem := (userPages + (2 ^ 64 - r.pages) + w.rem) % 2 ^ 64
        state := .user }
  | .userStart => some { w with regionStart := r.start, state := .user }
  | .user =>
    if r.pages < w.rem then some { w with rem := w.rem - r.pages }
    else if w.rem = r.size then some w
    else none

/-- One round of the first loop. -/
def poolStep (userPages : ℕ) (w : Walk) (r : Region) : Option Walk :=
  let w := { w with finish := r.finish }
  if w.state = .kernStart then poolSwitch userPages { w with regionStart := r.start, state := .kern } r
  else poolSwitch userPages w r

/-- The pages from `start` on are made free, for at most so many pools. -/
def markFree (pools : Pools) : ℕ → ℕ → ℕ → Memory → Option Memory
  | 0, _, _, _ => none
  | rounds + 1, start, finish, mem => do
    let pool ← poolOf pools mem start
    let poolEnd := pool.base + bitmapSize mem pool.usedMap * PGSIZE
    let pageIdx := pgNo start - pgNo pool.base
    if poolEnd < finish then
      let pageCnt := (poolEnd - start) / PGSIZE
      let mem ← bitmapSetMultiple mem pool.usedMap pageIdx pageCnt false
      markFree pools rounds poolEnd finish mem
    else
      let pageCnt := (finish - start) / PGSIZE
      bitmapSetMultiple mem pool.usedMap pageIdx pageCnt false

/-- One round of the second loop. Every pool that is gone through has a page of the region. -/
def markRegion (pools : Pools) (usableBound : ℕ) (mem : Memory) (r : Region) : Option Memory :=
  if r.finish < usableBound then some mem
  else markFree pools (r.pages + 1) (pgRoundUp (max r.start usableBound)) r.finish mem

/-- `user_pages` -/
def userPages (totalPages userPageLimit : ℕ) : ℕ :=
  if userPageLimit < totalPages / 2 then userPageLimit else totalPages / 2

/-- `populate_pools(base_mem, ext_mem)` for the end of the kernel image: the pools, `usable_bound` and the
memory. -/
def populatePools (mem : Memory) (entries : List E820Entry) (baseMem extMem : AreaInfo)
    (kernelImageEnd userPageLimit : ℕ) : Option (Pools × ℕ × Memory) := do
  let totalPages := (baseMem.size + extMem.size) / PGSIZE
  let userPages := userPages totalPages userPageLimit
  let kernPages := totalPages - userPages
  let w ← (regions entries).foldlM (poolStep userPages)
    ⟨.kernStart, kernPages, 0, 0, ⟨0, 0⟩, pgRoundUp kernelImageEnd, mem⟩
  let (userPool, usableBound, mem) ← initPool w.mem w.freeStart w.regionStart w.finish
  let pools : Pools := ⟨w.kernelPool, userPool⟩
  let mem ← (regions entries).foldlM (markRegion pools usableBound) mem
  return (pools, usableBound, mem)

end Jungle.Pages
