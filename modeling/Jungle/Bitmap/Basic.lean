import Jungle.Lib.WordMemory
import Mathlib.Algebra.Group.Nat.Defs

/-!
# The bitmap of the kernel library

`pintos/lib/kernel/bitmap.c`. A `struct bitmap` in memory has the number of its bits in the word at
its address and the pointer to its elements in the next word. A failed `ASSERT` is `none`. Sums of
`size_t` wrap around.
-/

set_option autoImplicit false
set_option relaxedAutoImplicit false

namespace Jungle.Bitmap

open Jungle.Lib

/-- `SIZE_MAX`, which `stdint.h` defines as `UINT32_MAX`, though a `size_t` has 64 bits. -/
def SIZE_MAX : ℕ := 2 ^ 32 - 1

/-- `BITMAP_ERROR` -/
def BITMAP_ERROR : ℕ := SIZE_MAX

/-- `ELEM_BITS` -/
def ELEM_BITS : ℕ := 64

/-- `elem_idx(bit_idx)` -/
def elemIdx (bitIdx : ℕ) : ℕ := bitIdx / ELEM_BITS

/-- `bit_mask(bit_idx)` -/
def bitMask (bitIdx : ℕ) : BitVec 64 := 1#64 <<< (bitIdx % ELEM_BITS)

/-- `elem_cnt(bit_cnt)` -/
def elemCnt (bitCnt : ℕ) : ℕ := (bitCnt + ELEM_BITS - 1) / ELEM_BITS

/-- `byte_cnt(bit_cnt)` -/
def byteCnt (bitCnt : ℕ) : ℕ := 8 * elemCnt bitCnt

/-- `bitmap_buf_size(bit_cnt)` -/
def bitmapBufSize (bitCnt : ℕ) : ℕ := 16 + byteCnt bitCnt

/-- `b->bit_cnt`, also `bitmap_size(b)`. -/
def bitmapSize (mem : Memory) (b : ℕ) : ℕ := (mem b).toNat

/-- `&b->bits[elem_idx(idx)]` -/
def elemAddr (mem : Memory) (b idx : ℕ) : ℕ := (mem (b + 8)).toNat + 8 * elemIdx idx

/-- `bitmap_mark(b, bit_idx)` -/
def bitmapMark (mem : Memory) (b bitIdx : ℕ) : Memory :=
  mem.write (elemAddr mem b bitIdx) (mem (elemAddr mem b bitIdx) ||| bitMask bitIdx)

/-- `bitmap_reset(b, bit_idx)` -/
def bitmapReset (mem : Memory) (b bitIdx : ℕ) : Memory :=
  mem.write (elemAddr mem b bitIdx) (mem (elemAddr mem b bitIdx) &&& ~~~bitMask bitIdx)

/-- `bitmap_set(b, idx, value)` -/
def bitmapSet (mem : Memory) (b idx : ℕ) (value : Bool) : Option Memory :=
  if idx < bitmapSize mem b then
    if value then some (bitmapMark mem b idx) else some (bitmapReset mem b idx)
  else none

/-- `bitmap_test(b, idx)` -/
def bitmapTest (mem : Memory) (b idx : ℕ) : Option Bool :=
  if idx < bitmapSize mem b then some (mem (elemAddr mem b idx) &&& bitMask idx ≠ 0#64) else none

/-- The loop of `bitmap_set_multiple`, with `cnt` rounds to go. -/
def setLoop (b : ℕ) (value : Bool) : ℕ → ℕ → Memory → Option Memory
  | _, 0, mem => some mem
  | idx, cnt + 1, mem => do
    let mem ← bitmapSet mem b idx value
    setLoop b value (idx + 1) cnt mem

/-- `bitmap_set_multiple(b, start, cnt, value)` -/
def bitmapSetMultiple (mem : Memory) (b start cnt : ℕ) (value : Bool) : Option Memory :=
  if start ≤ bitmapSize mem b ∧ (start + cnt) % 2 ^ 64 ≤ bitmapSize mem b then
    setLoop b value start cnt mem
  else none

/-- `bitmap_set_all(b, value)` -/
def bitmapSetAll (mem : Memory) (b : ℕ) (value : Bool) : Option Memory :=
  bitmapSetMultiple mem b 0 (bitmapSize mem b) value

/-- `last_mask(b)` -/
def lastMask (bitCnt : ℕ) : BitVec 64 :=
  if bitCnt % ELEM_BITS ≠ 0 then (1#64 <<< (bitCnt % ELEM_BITS)) - 1#64 else -1#64

/-- `bitmap_create(bit_cnt)`, where the calls of `malloc` return `block` and `bits`: the bitmap, if any, and the
memory. -/
def bitmapCreate (mem : Memory) (block bits : Option ℕ) (bitCnt : ℕ) :
    Option (Option ℕ × Memory) :=
  match block with
  | none => some (none, mem)
  | some b =>
    let mem := mem.write b (BitVec.ofNat 64 bitCnt)
    let mem := mem.write (b + 8) (BitVec.ofNat 64 (bits.getD 0))
    if bits ≠ none ∨ bitCnt = 0 then (bitmapSetAll mem b false).map (some b, ·)
    else some (none, mem)

/-- `bitmap_create_in_buf(bit_cnt, block, block_size)`, which returns `block`. -/
def bitmapCreateInBuf (mem : Memory) (bitCnt block blockSize : ℕ) : Option Memory :=
  if bitmapBufSize bitCnt ≤ blockSize then
    let mem := mem.write block (BitVec.ofNat 64 bitCnt)
    let mem := mem.write (block + 8) (BitVec.ofNat 64 (block + 16))
    bitmapSetAll mem block false
  else none

/-- The loop of `bitmap_contains`, with `cnt` rounds to go. -/
def containsLoop (mem : Memory) (b : ℕ) (value : Bool) : ℕ → ℕ → Option Bool
  | _, 0 => some false
  | idx, cnt + 1 => do
    if (← bitmapTest mem b idx) = value then return true
    else containsLoop mem b value (idx + 1) cnt

/-- `bitmap_contains(b, start, cnt, value)` -/
def bitmapContains (mem : Memory) (b start cnt : ℕ) (value : Bool) : Option Bool :=
  if start ≤ bitmapSize mem b ∧ (start + cnt) % 2 ^ 64 ≤ bitmapSize mem b then
    containsLoop mem b value start cnt
  else none

/-- `bitmap_all(b, start, cnt)` -/
def bitmapAll (mem : Memory) (b start cnt : ℕ) : Option Bool := do
  return !(← bitmapContains mem b start cnt false)

/-- The loop of `bitmap_scan`, with the given number of rounds to go. -/
def scanLoop (mem : Memory) (b cnt : ℕ) (value : Bool) : ℕ → ℕ → Option ℕ
  | _, 0 => some BITMAP_ERROR
  | i, rounds + 1 => do
    if ← bitmapContains mem b i cnt (!value) then scanLoop mem b cnt value (i + 1) rounds
    else return i

/-- `bitmap_scan(b, start, cnt, value)` -/
def bitmapScan (mem : Memory) (b start cnt : ℕ) (value : Bool) : Option ℕ :=
  if start ≤ bitmapSize mem b then
    if cnt ≤ bitmapSize mem b then
      scanLoop mem b cnt value start (bitmapSize mem b - cnt + 1 - start)
    else some BITMAP_ERROR
  else none

/-- `bitmap_scan_and_flip(b, start, cnt, value)`: the index and the memory. -/
def bitmapScanAndFlip (mem : Memory) (b start cnt : ℕ) (value : Bool) : Option (ℕ × Memory) := do
  let idx ← bitmapScan mem b start cnt value
  if idx ≠ BITMAP_ERROR then return (idx, ← bitmapSetMultiple mem b idx cnt (!value))
  else return (idx, mem)

end Jungle.Bitmap
