import Jungle.FileSys.Directory

/-!
# Starting the file system

`filesys_init`, `filesys_done` and `do_format` of `pintos/filesys/filesys.c`, the rest of `free-map.c`, and
`bitmap_read` of `lib/kernel/bitmap.c`, in the build without `EFILESYS`. A `PANIC` is `none`, like a failed
`ASSERT`. The blocks that `malloc` returns for the bitmap are arguments.
-/

set_option autoImplicit false
set_option relaxedAutoImplicit false

namespace Jungle.FileSys

open Jungle.Lib Jungle.Bitmap

/-- The memory where the first elements of `b->bits` are those in a buffer. -/
def withElements (mem : Memory) (b : ℕ) (buffer : Bytes) (elements : ℕ) : Memory := fun a ↦
  let bits := (mem (b + 8)).toNat
  if bits ≤ a ∧ a < bits + 8 * elements ∧ (a - bits) % 8 = 0 then BitVec.ofNat 64 (buffer.load (a - bits) 8)
  else mem a

/-- `bitmap_read (free_map, free_map_file)` -/
def freeMapRead (s : State) : Option (Bool × State) := do
  let n := bitmapSize s.mem s.freeMap
  if 0 < n then
    let size := byteCnt n
    let (bytesRead, buffer, s) ←
      fileReadAt s (← s.freeMapFile) (bitmapBytes s.mem s.freeMap) size 0
    let mem := withElements s.mem s.freeMap buffer (elemCnt n)
    let last := (mem (s.freeMap + 8)).toNat + 8 * (elemCnt n - 1)
    return (decide (bytesRead = size), { s with mem := mem.write last (mem last &&& lastMask n) })
  else return (true, s)

/-- `free_map_init ()` -/
def freeMapInit (s : State) (block bits : Option ℕ) : Option State := do
  match ← bitmapCreate s.mem block bits s.capacity with
  | (none, _) => none
  | (some b, mem) =>
    return { s with
      mem := bitmapMark (bitmapMark mem b FREE_MAP_SECTOR) b ROOT_DIR_SECTOR
      freeMap := b }

/-- `free_map_file = file_open (inode_open (FREE_MAP_SECTOR))`, which must not fail. -/
def openFreeMapFile (s : State) : Option State := do
  let (inode, s) ← inodeOpen s FREE_MAP_SECTOR
  let (file, s) ← fileOpen s inode
  if file = none then none else return { s with freeMapFile := file }

/-- `free_map_open ()` -/
def freeMapOpen (s : State) : Option State := do
  let s ← openFreeMapFile s
  let (success, s) ← freeMapRead s
  if success then return s else none

/-- `free_map_close ()` -/
def freeMapClose (s : State) : Option State := fileClose s s.freeMapFile

/-- `free_map_create ()` -/
def freeMapCreate (s : State) : Option State := do
  let (created, s) ← inodeCreate s FREE_MAP_SECTOR (int32 (byteCnt (bitmapSize s.mem s.freeMap)))
  if created then
    let s ← openFreeMapFile s
    let (success, s) ← freeMapWrite s
    if success then return s else none
  else none

/-- `do_format ()` -/
def doFormat (s : State) : Option State := do
  let s ← freeMapCreate s
  let (created, s) ← dirCreate s ROOT_DIR_SECTOR 16
  if created then freeMapClose s else none

/-- `filesys_init (format)` -/
def filesysInit (s : State) (block bits : Option ℕ) (format : Bool) : Option State := do
  let s ← freeMapInit { s with openInodes := [] } block bits
  let s ← if format then doFormat s else some s
  freeMapOpen s

/-- `filesys_done ()` -/
def filesysDone (s : State) : Option State := freeMapClose s

/-- The state of a kernel that starts, with the disk and the calls of `malloc` to come. -/
def State.boot (disk : Bytes) (capacity : ℕ) (mem : Memory) (mallocs : ℕ → Bool) : State where
  disk := disk
  capacity := capacity
  mem := mem
  freeMap := 0
  freeMapFile := none
  inodes := Store.empty
  openInodes := []
  files := Store.empty
  next := 0
  mallocs := mallocs

end Jungle.FileSys
