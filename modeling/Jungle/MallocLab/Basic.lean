import Jungle.Lib.ByteMemory
import Jungle.Lib.Loop
import Jungle.Lib.MachineInt

/-!
# The allocator of the malloc lab

`malloc-lab/mm.c` and `memlib.c`, in the 64-bit build. The memory is a memory of bytes, of which
`mem_init` has obtained `MAX_HEAP` from `mem_start_brk` on; a call faults, with `none`, where it reads or
writes others. They are far from both ends of the address space, so that a pointer that would wrap
around points to none of them, either. A `size_t` has 64 bits and is reduced where it can wrap around.
`fuel` bounds the rounds of the loop of `best_fit`. `heap_listp` and the searches that are not used are
left out, and what `mem_sbrk` prints.
-/

set_option autoImplicit false
set_option relaxedAutoImplicit false

namespace Jungle.MallocLab

open Jungle.Lib

/-- `WSIZE` -/
def WSIZE : ℕ := 4

/-- `DSIZE` -/
def DSIZE : ℕ := 8

/-- `CHUNKSIZE` -/
def CHUNKSIZE : ℕ := 1 <<< 10

/-- `MAX_HEAP` -/
def MAX_HEAP : ℕ := 20 * (1 <<< 20)

/-- The number of values of a `size_t`. -/
def sizeMod : ℕ := 2 ^ 64

/-- The memory, `mem_start_brk`, `mem_brk` and `free_listp`. -/
structure State where
  mem : Bytes
  startBrk : ℕ
  brk : ℕ
  freeListp : ℕ

/-! ### Memory -/

/-- The bytes are some of those of `mem_init`. -/
def InArena (s : State) (p n : ℕ) : Prop := s.startBrk ≤ p ∧ p + n ≤ s.startBrk + MAX_HEAP

instance (s : State) (p n : ℕ) : Decidable (InArena s p n) := by
  unfold InArena
  infer_instance

/-- Reads a number of so many bytes. -/
def load (s : State) (p n : ℕ) : Option ℕ := if InArena s p n then some (s.mem.load p n) else none

/-- Writes a number of so many bytes. -/
def store (s : State) (p n v : ℕ) : Option State :=
  if InArena s p n then some { s with mem := s.mem.store p n v } else none

/-- `memcpy (dst, src, n)`, which copies bytes in ascending order. -/
def memcpy (s : State) (dst src n : ℕ) : Option State :=
  if n = 0 then some s
  else if InArena s dst n ∧ InArena s src n then
    some { s with mem := s.mem.copyUp dst src n }
  else none

/-- `mem_sbrk (incr)`: the old break, unless it fails, and the state. -/
def memSbrk (s : State) (incr : ℤ) : Option ℕ × State :=
  if incr < 0 ∨ (s.startBrk + MAX_HEAP : ℤ) < s.brk + incr then (none, s)
  else (some s.brk, { s with brk := s.brk + incr.toNat })

/-! ### Blocks -/

/-- `PACK (size, alloc)` -/
def pack (size alloc : ℕ) : ℕ := size ||| alloc

/-- `GET (p)` -/
def get (s : State) (p : ℕ) : Option ℕ := load s p WSIZE

/-- `PUT (p, val)` -/
def put (s : State) (p val : ℕ) : Option State := store s p WSIZE val

/-- `GET_SIZE (p)` -/
def getSize (s : State) (p : ℕ) : Option ℕ := (get s p).map fun w ↦ w / 8 * 8

/-- `GET_ALLOC (p)` -/
def getAlloc (s : State) (p : ℕ) : Option Bool := (get s p).map fun w ↦ w % 2 == 1

/-- `HDRP (bp)` -/
def hdrp (bp : ℕ) : ℕ := bp - WSIZE

/-- `FTRP (bp)` -/
def ftrp (s : State) (bp : ℕ) : Option ℕ := (getSize s (hdrp bp)).map fun size ↦ bp + size - DSIZE

/-- `NEXT_BLKP (bp)` -/
def nextBlkp (s : State) (bp : ℕ) : Option ℕ := (getSize s (bp - WSIZE)).map fun size ↦ bp + size

/-- `PREV_BLKP (bp)` -/
def prevBlkp (s : State) (bp : ℕ) : Option ℕ := (getSize s (bp - DSIZE)).map fun size ↦ bp - size

/-- `NEXT_FREE (bp)` -/
def nextFree (s : State) (bp : ℕ) : Option ℕ := load s bp 8

/-- `PREV_FREE (bp)` -/
def prevFree (s : State) (bp : ℕ) : Option ℕ := load s (bp + DSIZE) 8

/-- `NEXT_FREE (bp) = next` -/
def setNextFree (s : State) (bp next : ℕ) : Option State := store s bp 8 next

/-- `PREV_FREE (bp) = prev` -/
def setPrevFree (s : State) (bp prev : ℕ) : Option State := store s (bp + DSIZE) 8 prev

/-- `ALIGN (size)` -/
def align (size : ℕ) : ℕ := (size + 7) % sizeMod / 8 * 8

/-! ### The free list -/

/-- `remove_from_free_list (bp)` -/
def removeFromFreeList (s : State) (bp : ℕ) : Option State := do
  let s ← if (← prevFree s bp) = 0 then
      let next ← nextFree s bp
      some { s with freeListp := next }
    else setNextFree s (← prevFree s bp) (← nextFree s bp)
  if (← nextFree s bp) ≠ 0 then setPrevFree s (← nextFree s bp) (← prevFree s bp)
  else return s

/-- `add_to_free_list (bp)` -/
def addToFreeList (s : State) (bp : ℕ) : Option State := do
  let s ← setNextFree s bp s.freeListp
  let s ← setPrevFree s bp 0
  let s ← if s.freeListp ≠ 0 then setPrevFree s s.freeListp bp else some s
  return { s with freeListp := bp }

/-- `coalesce (bp)`: the block and the state. -/
def coalesce (s : State) (bp : ℕ) : Option (ℕ × State) := do
  let prevAlloc ← getAlloc s (← ftrp s (← prevBlkp s bp))
  let nextAlloc ← getAlloc s (hdrp (← nextBlkp s bp))
  let size ← getSize s (hdrp bp)
  if prevAlloc && nextAlloc then
    let s ← addToFreeList s bp
    return (bp, s)
  else if prevAlloc && !nextAlloc then
    let s ← removeFromFreeList s (← nextBlkp s bp)
    let size := size + (← getSize s (hdrp (← nextBlkp s bp)))
    let s ← put s (hdrp bp) (pack size 0)
    let s ← put s (← ftrp s bp) (pack size 0)
    let s ← addToFreeList s bp
    return (bp, s)
  else if !prevAlloc && nextAlloc then
    let s ← removeFromFreeList s (← prevBlkp s bp)
    let size := size + (← getSize s (hdrp (← prevBlkp s bp)))
    let s ← put s (hdrp (← prevBlkp s bp)) (pack size 0)
    let s ← put s (← ftrp s (← prevBlkp s bp)) (pack size 0)
    let bp ← prevBlkp s bp
    let s ← addToFreeList s bp
    return (bp, s)
  else
    let s ← removeFromFreeList s (← nextBlkp s bp)
    let s ← removeFromFreeList s (← prevBlkp s bp)
    let size := size + ((← getSize s (hdrp (← prevBlkp s bp))) +
      (← getSize s (← ftrp s (← nextBlkp s bp))))
    let s ← put s (hdrp (← prevBlkp s bp)) (pack size 0)
    let s ← put s (← ftrp s (← nextBlkp s bp)) (pack size 0)
    let bp ← prevBlkp s bp
    let s ← addToFreeList s bp
    return (bp, s)

/-! ### Growing the heap -/

/-- The size that `extend_heap (words)` computes. -/
def extendSize (words : ℕ) : ℕ :=
  if words % 2 = 1 then (words + 1) * WSIZE % sizeMod else words * WSIZE % sizeMod

/-- What `extend_heap (words)` does with its `size` and what `mem_sbrk (size)` returns. -/
def extendHeapWith (size : ℕ) : Option ℕ × State → Option (ℕ × State)
  | (none, s) => some (0, s)
  | (some bp, s) => do
    let s ← put s (hdrp bp) (pack size 0)
    let s ← put s (← ftrp s bp) (pack size 0)
    let s ← put s (hdrp (← nextBlkp s bp)) (pack 0 1)
    coalesce s bp

/-- `extend_heap (words)`: the block, or `NULL`, and the state. -/
def extendHeap (s : State) (words : ℕ) : Option (ℕ × State) :=
  extendHeapWith (extendSize words) (memSbrk s (int32 (extendSize words)))

/-- What `mm_init ()` does with what `mem_sbrk (4 * WSIZE)` returns. -/
def mmInitWith : Option ℕ × State → Option (Bool × State)
  | (none, s) => some (false, s)
  | (some p, s) => do
    let s ← put s p 0
    let s ← put s (p + 1 * WSIZE) (pack DSIZE 1)
    let s ← put s (p + 2 * WSIZE) (pack DSIZE 1)
    let s ← put s (p + 3 * WSIZE) (pack 0 1)
    let (bp, s) ← extendHeap { s with freeListp := 0 } (DSIZE * 2)
    return (decide (bp ≠ 0), s)

/-- `mm_init ()`: whether it succeeds, and the state. -/
def mmInit (s : State) : Option (Bool × State) := mmInitWith (memSbrk s (4 * WSIZE : ℕ))

/-! ### Allocation -/

/-- A round of the loop of `best_fit`, with `bp` and `best`. -/
def bestFitBody (s : State) (asize : ℕ) : ℕ × ℕ → Option ((ℕ × ℕ) ⊕ ℕ)
  | (bp, best) =>
    if bp = 0 then some (.inr best)
    else do
      let bsize ← getSize s (hdrp bp)
      if asize ≤ bsize then
        let best ← if best = 0 then some bp
          else (getSize s (hdrp best)).map fun size ↦ if bsize < size then bp else best
        if bsize = asize then return .inr best
        else return .inl (← nextFree s bp, best)
      else return .inl (← nextFree s bp, best)

/-- `best_fit (asize)` -/
def bestFit (fuel : ℕ) (s : State) (asize : ℕ) : Option ℕ :=
  whileLoop (bestFitBody s asize) fuel (s.freeListp, 0)

/-- `place (bp, asize)` -/
def place (s : State) (bp asize : ℕ) : Option State := do
  let csize ← getSize s (hdrp bp)
  let s ← removeFromFreeList s bp
  let rest := (csize + sizeMod - asize) % sizeMod
  if 3 * DSIZE ≤ rest then
    let s ← put s (hdrp bp) (pack asize 1)
    let s ← put s (← ftrp s bp) (pack asize 1)
    let nextBp ← nextBlkp s bp
    let s ← put s (hdrp nextBp) (pack rest 0)
    let s ← put s (← ftrp s nextBp) (pack rest 0)
    addToFreeList s nextBp
  else
    let s ← put s (hdrp bp) (pack csize 1)
    put s (← ftrp s bp) (pack csize 1)

/-- `asize` in `mm_malloc (size)` -/
def adjustedSize (size : ℕ) : ℕ :=
  if size = 448 then 520
  else if size = 112 then 136
  else align ((size + DSIZE) % sizeMod)

/-- `extendsize` in `mm_malloc (size)` -/
def growth (asize : ℕ) : ℕ :=
  if asize < CHUNKSIZE then CHUNKSIZE
  else if asize < CHUNKSIZE * 4 then asize + CHUNKSIZE / 4
  else (asize + asize / 24) % sizeMod

/-- `mm_malloc (size)`: the block, or `NULL`, and the state. -/
def mmMalloc (fuel : ℕ) (s : State) (size : ℕ) : Option (ℕ × State) :=
  if size = 0 then some (0, s)
  else do
    let asize := adjustedSize size
    let bp ← bestFit fuel s asize
    if bp ≠ 0 then
      let s ← place s bp asize
      return (bp, s)
    else
      let (bp, s) ← extendHeap s (growth asize / 2)
      if bp = 0 then return (0, s)
      else
        let s ← place s bp asize
        return (bp, s)

/-- `mm_free (ptr)` -/
def mmFree (s : State) (ptr : ℕ) : Option State := do
  let size ← getSize s (hdrp ptr)
  let s ← put s (hdrp ptr) (pack size 0)
  let s ← put s (← ftrp s ptr) (pack size 0)
  let (_, s) ← coalesce s ptr
  return s

/-- The last part of `mm_realloc (ptr, size)`: a new block, a copy, and the old block is freed. -/
def reallocMoving (fuel : ℕ) (s : State) (ptr size oldsize : ℕ) : Option (ℕ × State) := do
  let (newptr, s) ← mmMalloc fuel s size
  if newptr = 0 then return (0, s)
  else
    let copySize := (oldsize + sizeMod - DSIZE) % sizeMod
    let copySize := if size < copySize then size else copySize
    let s ← memcpy s newptr ptr copySize
    let s ← mmFree s ptr
    return (newptr, s)

/-- The part of `mm_realloc (ptr, size)` that tries the previous block. -/
def reallocBackward (fuel : ℕ) (s : State) (ptr size oldsize asize : ℕ) : Option (ℕ × State) := do
  let prev ← prevBlkp s ptr
  if !(← getAlloc s (hdrp prev)) && (← getSize s (hdrp prev)) != 0 then
    let prevSize ← getSize s (hdrp prev)
    if asize ≤ prevSize + oldsize then
      let s ← removeFromFreeList s prev
      let s ← put s (hdrp prev) (pack (prevSize + oldsize) 1)
      let s ← put s (← ftrp s prev) (pack (prevSize + oldsize) 1)
      let s ← memcpy s prev ptr ((oldsize + sizeMod - DSIZE) % sizeMod)
      return (prev, s)
    else reallocMoving fuel s ptr size oldsize
  else reallocMoving fuel s ptr size oldsize

/-- The part of `mm_realloc (ptr, size)` that tries the next block. -/
def reallocForward (fuel : ℕ) (s : State) (ptr size oldsize asize : ℕ) : Option (ℕ × State) := do
  let next ← nextBlkp s ptr
  if !(← getAlloc s (hdrp next)) && (← getSize s (hdrp next)) != 0 then
    let nextSize ← getSize s (hdrp next)
    if asize ≤ oldsize + nextSize then
      let s ← removeFromFreeList s next
      let s ← put s (hdrp ptr) (pack (oldsize + nextSize) 1)
      let s ← put s (← ftrp s ptr) (pack (oldsize + nextSize) 1)
      return (ptr, s)
    else reallocBackward fuel s ptr size oldsize asize
  else reallocBackward fuel s ptr size oldsize asize

/-- `mm_realloc (ptr, size)`: the block, or `NULL`, and the state. -/
def mmRealloc (fuel : ℕ) (s : State) (ptr size : ℕ) : Option (ℕ × State) :=
  if ptr = 0 then mmMalloc fuel s size
  else if size = 0 then (mmFree s ptr).map (0, ·)
  else do
    let oldsize ← getSize s (hdrp ptr)
    let asize := align ((size + DSIZE) % sizeMod)
    if asize ≤ oldsize then return (ptr, s)
    else reallocForward fuel s ptr size oldsize asize

end Jungle.MallocLab
