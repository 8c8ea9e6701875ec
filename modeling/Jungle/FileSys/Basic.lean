import Jungle.Bitmap.Basic
import Jungle.Lib.ByteMemory
import Jungle.Lib.MachineInt
import Jungle.Lib.Store

/-!
# Inodes and open files

`pintos/filesys/inode.c`, `file.c` and `free-map.c`, and what they use of `devices/disk.c` and
`lib/kernel/bitmap.c`. The disk is one row of bytes, sector after sector. The structures that
`malloc` returns are cells of stores, and `open_inodes` is the list of their addresses, which are not
used again. `mallocs` says which of the next calls of `malloc` and `calloc` succeed. A call faults,
with `none`, where an `ASSERT` fails and where it follows a pointer to no cell. Offsets and sizes in a
file, of type `off_t`, are not negative, and neither `open_cnt` nor `deny_write_cnt` overflows.
-/

set_option autoImplicit false
set_option relaxedAutoImplicit false

namespace Jungle.FileSys

open Jungle.Lib Jungle.Bitmap

/-- `DISK_SECTOR_SIZE` -/
def DISK_SECTOR_SIZE : ℕ := 512

/-- `FREE_MAP_SECTOR` -/
def FREE_MAP_SECTOR : ℕ := 0

/-- `ROOT_DIR_SECTOR` -/
def ROOT_DIR_SECTOR : ℕ := 1

/-- `INODE_MAGIC` -/
def INODE_MAGIC : ℕ := 0x494e4f44

/-- `struct inode_disk` -/
structure InodeDisk where
  start : ℕ
  length : ℤ
  magic : ℕ
deriving DecidableEq, Repr

/-- The sector with an on-disk inode. -/
def InodeDisk.toBytes (d : InodeDisk) : Bytes :=
  Bytes.store (Bytes.store (Bytes.store (fun _ ↦ 0) 0 4 d.start) 4 4 (d.length % 2 ^ 32).toNat)
    8 4 d.magic

/-- The on-disk inode in a sector. -/
def InodeDisk.ofBytes (m : Bytes) : InodeDisk := ⟨m.load 0 4, int32 (m.load 4 4), m.load 8 4⟩

/-- `struct inode` -/
structure Inode where
  sector : ℕ
  openCnt : ℤ
  removed : Bool
  denyWriteCnt : ℤ
  data : InodeDisk
deriving DecidableEq, Repr

/-- `struct file` -/
structure File where
  inode : ℕ
  pos : ℕ
  denyWrite : Bool
deriving DecidableEq, Repr

/-- The disk, the bitmap `free_map` in its memory, `free_map_file`, the inodes and files that are open,
and the calls of `malloc` to come. -/
structure State where
  disk : Bytes
  capacity : ℕ
  mem : Memory
  freeMap : ℕ
  freeMapFile : Option ℕ
  inodes : Store Inode
  openInodes : List ℕ
  files : Store File
  next : ℕ
  mallocs : ℕ → Bool

/-- Whether the next `malloc` or `calloc` succeeds. -/
def malloc (s : State) : Bool × State :=
  (s.mallocs 0, { s with mallocs := fun i ↦ s.mallocs (i + 1) })

/-! ### The disk -/

/-- What `select_sector` asserts. -/
def OnDisk (s : State) (sector : ℕ) : Prop := sector < s.capacity ∧ sector < 2 ^ 28

instance (s : State) (sector : ℕ) : Decidable (OnDisk s sector) := by
  unfold OnDisk
  infer_instance

/-- `disk_read (filesys_disk, sector, buffer)`, where the sector is copied to an offset in the buffer. -/
def diskRead (s : State) (sector : ℕ) (buffer : Bytes) (offset : ℕ) : Option Bytes :=
  if OnDisk s sector then
    some (buffer.copy offset s.disk (DISK_SECTOR_SIZE * sector) DISK_SECTOR_SIZE)
  else none

/-- `disk_write (filesys_disk, sector, buffer)`, where the sector is at an offset in the buffer. -/
def diskWrite (s : State) (sector : ℕ) (buffer : Bytes) (offset : ℕ) : Option State :=
  if OnDisk s sector then
    some { s with
      disk := s.disk.copy (DISK_SECTOR_SIZE * sector) buffer offset DISK_SECTOR_SIZE }
  else none

/-! ### Reading and writing an inode -/

/-- `bytes_to_sectors (size)` -/
def bytesToSectors (size : ℤ) : ℕ :=
  ((int32 (size + DISK_SECTOR_SIZE - 1)).tdiv DISK_SECTOR_SIZE % 2 ^ 64).toNat

/-- `byte_to_sector (inode, pos)` -/
def byteToSector (data : InodeDisk) (pos : ℕ) : ℕ :=
  if (pos : ℤ) < data.length then (data.start + pos / DISK_SECTOR_SIZE) % 2 ^ 32 else 2 ^ 32 - 1

/-- `sector_ofs` -/
def sectorOfs (offset : ℕ) : ℕ := offset % DISK_SECTOR_SIZE

/-- `sector_left` -/
def sectorLeft (offset : ℕ) : ℕ := DISK_SECTOR_SIZE - sectorOfs offset

/-- `chunk_size`, or 0 if it is negative. -/
def chunkSize (data : InodeDisk) (size offset : ℕ) : ℕ :=
  let inodeLeft := (data.length - offset).toNat
  let minLeft := if inodeLeft < sectorLeft offset then inodeLeft else sectorLeft offset
  if size < minLeft then size else minLeft

/-- Whether there is a bounce buffer after one has been allocated, if need be. -/
def getBounce (s : State) (bounce : Bool) : Bool × State :=
  if bounce then (true, s) else malloc s

/-- The loop of `inode_read_at`, for at most so many rounds: the bytes read, the buffer and the
state. -/
def readLoop (data : InodeDisk) :
    ℕ → State → Bool → Bytes → ℕ → ℕ → ℕ → Option (ℕ × Bytes × State)
  | 0, s, _, buffer, _, _, bytesRead => some (bytesRead, buffer, s)
  | rounds + 1, s, bounce, buffer, size, offset, bytesRead =>
    let chunk := chunkSize data size offset
    if chunk = 0 then some (bytesRead, buffer, s)
    else if sectorOfs offset = 0 ∧ chunk = DISK_SECTOR_SIZE then do
      let buffer ← diskRead s (byteToSector data offset) buffer bytesRead
      readLoop data rounds s bounce buffer (size - chunk) (offset + chunk) (bytesRead + chunk)
    else
      let (bounce, s) := getBounce s bounce
      if bounce then do
        let sector ← diskRead s (byteToSector data offset) (fun _ ↦ 0) 0
        let buffer := buffer.copy bytesRead sector (sectorOfs offset) chunk
        readLoop data rounds s bounce buffer (size - chunk) (offset + chunk) (bytesRead + chunk)
      else some (bytesRead, buffer, s)

/-- `inode_read_at (inode, buffer, size, offset)` -/
def inodeReadAt (s : State) (inode : ℕ) (buffer : Bytes) (size offset : ℕ) :
    Option (ℕ × Bytes × State) := do
  let inode ← s.inodes inode
  readLoop inode.data size s false buffer size offset 0

/-- The loop of `inode_write_at`, for at most so many rounds: the bytes written and the state. -/
def writeLoop (data : InodeDisk) (buffer : Bytes) :
    ℕ → State → Bool → ℕ → ℕ → ℕ → Option (ℕ × State)
  | 0, s, _, _, _, bytesWritten => some (bytesWritten, s)
  | rounds + 1, s, bounce, size, offset, bytesWritten =>
    let chunk := chunkSize data size offset
    if chunk = 0 then some (bytesWritten, s)
    else if sectorOfs offset = 0 ∧ chunk = DISK_SECTOR_SIZE then do
      let s ← diskWrite s (byteToSector data offset) buffer bytesWritten
      writeLoop data buffer rounds s bounce (size - chunk) (offset + chunk) (bytesWritten + chunk)
    else
      let (bounce, s) := getBounce s bounce
      if bounce then do
        let sector ← if 0 < sectorOfs offset ∨ chunk < sectorLeft offset then
            diskRead s (byteToSector data offset) (fun _ ↦ 0) 0
          else some (fun _ ↦ 0)
        let sector := sector.copy (sectorOfs offset) buffer bytesWritten chunk
        let s ← diskWrite s (byteToSector data offset) sector 0
        writeLoop data buffer rounds s bounce (size - chunk) (offset + chunk) (bytesWritten + chunk)
      else some (bytesWritten, s)

/-- `inode_write_at (inode, buffer, size, offset)` -/
def inodeWriteAt (s : State) (inode : ℕ) (buffer : Bytes) (size offset : ℕ) :
    Option (ℕ × State) := do
  let inode ← s.inodes inode
  if inode.denyWriteCnt ≠ 0 then return (0, s)
  else writeLoop inode.data buffer size s false size offset 0

/-- `file_write_at (file, buffer, size, file_ofs)` -/
def fileWriteAt (s : State) (file : ℕ) (buffer : Bytes) (size fileOfs : ℕ) :
    Option (ℕ × State) := do
  let file ← s.files file
  inodeWriteAt s file.inode buffer size fileOfs

/-! ### The free map -/

/-- The bytes of `b->bits`. -/
def bitmapBytes (mem : Memory) (b : ℕ) : Bytes := fun i ↦
  UInt8.ofNat ((mem ((mem (b + 8)).toNat + 8 * (i / 8))).toNat / 256 ^ (i % 8))

/-- `bitmap_write (free_map, free_map_file)` -/
def freeMapWrite (s : State) : Option (Bool × State) := do
  let size := byteCnt (bitmapSize s.mem s.freeMap)
  let (written, s) ← fileWriteAt s (← s.freeMapFile) (bitmapBytes s.mem s.freeMap) size 0
  return (decide (written = size), s)

/-- `free_map_allocate (cnt, sectorp)`: the first sector, if successful, and the state. -/
def freeMapAllocate (s : State) (cnt : ℕ) : Option (Option ℕ × State) := do
  let (sector, mem) ← bitmapScanAndFlip s.mem s.freeMap 0 cnt false
  let s := { s with mem := mem }
  if sector = BITMAP_ERROR then return (none, s)
  else if s.freeMapFile = none then return (some sector, s)
  else
    let (written, s) ← freeMapWrite s
    if written then return (some sector, s)
    else
      let mem ← bitmapSetMultiple s.mem s.freeMap sector cnt false
      return (none, { s with mem := mem })

/-- `free_map_release (sector, cnt)` -/
def freeMapRelease (s : State) (sector cnt : ℕ) : Option State := do
  if ← bitmapAll s.mem s.freeMap sector cnt then
    let mem ← bitmapSetMultiple s.mem s.freeMap sector cnt false
    let (_, s) ← freeMapWrite { s with mem := mem }
    return s
  else none

/-! ### Inodes -/

/-- The open inode of a sector. -/
def findInode (s : State) (sector : ℕ) : Option ℕ :=
  s.openInodes.find? fun p ↦ (s.inodes p).map Inode.sector == some sector

/-- `inode_reopen (inode)`, which returns its argument. -/
def inodeReopen (s : State) : Option ℕ → Option State
  | none => some s
  | some p => do
    let inode ← s.inodes p
    return { s with inodes := s.inodes.put p { inode with openCnt := inode.openCnt + 1 } }

/-- `inode_open (sector)`: the inode, if any, and the state. -/
def inodeOpen (s : State) (sector : ℕ) : Option (Option ℕ × State) :=
  match findInode s sector with
  | some p => do
    let s ← inodeReopen s (some p)
    return (some p, s)
  | none =>
    let (ok, s) := malloc s
    if ok then do
      let content ← diskRead s sector (fun _ ↦ 0) 0
      let inode := ⟨sector, 1, false, 0, InodeDisk.ofBytes content⟩
      return (some s.next, { s with
        inodes := s.inodes.put s.next inode
        openInodes := s.next :: s.openInodes
        next := s.next + 1 })
    else some (none, s)

/-- `inode_close (inode)` -/
def inodeClose (s : State) : Option ℕ → Option State
  | none => some s
  | some p => do
    let inode ← s.inodes p
    let inode := { inode with openCnt := inode.openCnt - 1 }
    let s := { s with inodes := s.inodes.put p inode }
    if inode.openCnt = 0 then
      let s := { s with openInodes := s.openInodes.erase p }
      if inode.removed then
        let s ← freeMapRelease s inode.sector 1
        let s ← freeMapRelease s inode.data.start (bytesToSectors inode.data.length)
        return { s with inodes := s.inodes.free p }
      else return { s with inodes := s.inodes.free p }
    else return s

/-- `inode_deny_write (inode)` -/
def inodeDenyWrite (s : State) (p : ℕ) : Option State := do
  let inode ← s.inodes p
  let inode := { inode with denyWriteCnt := inode.denyWriteCnt + 1 }
  if inode.denyWriteCnt ≤ inode.openCnt then return { s with inodes := s.inodes.put p inode }
  else none

/-- `inode_allow_write (inode)` -/
def inodeAllowWrite (s : State) (p : ℕ) : Option State := do
  let inode ← s.inodes p
  if 0 < inode.denyWriteCnt ∧ inode.denyWriteCnt ≤ inode.openCnt then
    return { s with
      inodes := s.inodes.put p { inode with denyWriteCnt := inode.denyWriteCnt - 1 } }
  else none

/-! ### Files -/

/-- `file_open (inode)`: the file, if any, and the state. -/
def fileOpen (s : State) (inode : Option ℕ) : Option (Option ℕ × State) :=
  let (ok, s) := malloc s
  match inode, ok with
  | some p, true =>
    some (some s.next, { s with files := s.files.put s.next ⟨p, 0, false⟩, next := s.next + 1 })
  | _, _ => (inodeClose s inode).map (none, ·)

/-- `file_reopen (file)`: the file, if any, and the state. -/
def fileReopen (s : State) (file : ℕ) : Option (Option ℕ × State) := do
  let f ← s.files file
  let s ← inodeReopen s (some f.inode)
  fileOpen s (some f.inode)

/-- `file_deny_write (file)` -/
def fileDenyWrite (s : State) (file : ℕ) : Option State := do
  let f ← s.files file
  if f.denyWrite then return s
  else inodeDenyWrite { s with files := s.files.put file { f with denyWrite := true } } f.inode

/-- `file_allow_write (file)` -/
def fileAllowWrite (s : State) (file : ℕ) : Option State := do
  let f ← s.files file
  if f.denyWrite then
    inodeAllowWrite { s with files := s.files.put file { f with denyWrite := false } } f.inode
  else return s

/-- `file_duplicate (file)`: the file, if any, and the state. -/
def fileDuplicate (s : State) (file : ℕ) : Option (Option ℕ × State) := do
  let f ← s.files file
  let s ← inodeReopen s (some f.inode)
  match ← fileOpen s (some f.inode) with
  | (none, s) => return (none, s)
  | (some nfile, s) =>
    let nf ← s.files nfile
    let s := { s with files := s.files.put nfile { nf with pos := f.pos } }
    if f.denyWrite then
      let s ← fileDenyWrite s nfile
      return (some nfile, s)
    else return (some nfile, s)

/-- `file_close (file)` -/
def fileClose (s : State) : Option ℕ → Option State
  | none => some s
  | some file => do
    let s ← fileAllowWrite s file
    let f ← s.files file
    let s ← inodeClose s (some f.inode)
    return { s with files := s.files.free file }

/-- `file_read (file, buffer, size)`: the bytes read, the buffer and the state. -/
def fileRead (s : State) (file : ℕ) (buffer : Bytes) (size : ℕ) : Option (ℕ × Bytes × State) := do
  let f ← s.files file
  let (bytesRead, buffer, s) ← inodeReadAt s f.inode buffer size f.pos
  return (bytesRead, buffer,
    { s with files := s.files.put file { f with pos := f.pos + bytesRead } })

/-- `file_read_at (file, buffer, size, file_ofs)` -/
def fileReadAt (s : State) (file : ℕ) (buffer : Bytes) (size fileOfs : ℕ) :
    Option (ℕ × Bytes × State) := do
  let f ← s.files file
  inodeReadAt s f.inode buffer size fileOfs

/-- `file_length (file)` -/
def fileLength (s : State) (file : ℕ) : Option ℤ := do
  let f ← s.files file
  let inode ← s.inodes f.inode
  return inode.data.length

/-- `file_seek (file, new_pos)` -/
def fileSeek (s : State) (file : ℕ) (newPos : ℤ) : Option State := do
  let f ← s.files file
  if 0 ≤ newPos then return { s with files := s.files.put file { f with pos := newPos.toNat } }
  else none

end Jungle.FileSys
