import Jungle.FileSys.Basic

/-!
# The root directory

`pintos/filesys/directory.c` and `filesys.c`, with `inode_create` and `inode_remove` of `inode.c` and
`file_write` of `file.c`, in the build without `EFILESYS`. A C string is the list of its bytes; that of an
entry ends within its array. A `struct dir` is the pointer to its inode: its position, which is used by
`dir_readdir` only, is left out. A local structure holds zeros until it is read.
-/

set_option autoImplicit false
set_option relaxedAutoImplicit false

namespace Jungle.FileSys

open Jungle.Lib Jungle.Bitmap

/-! ### Inodes -/

/-- The loop of `inode_create`, for so many sectors from one on. -/
def writeZeros (s : State) (sector : ℕ) : ℕ → Option State
  | 0 => some s
  | sectors + 1 => do
    let s ← diskWrite s sector (fun _ ↦ 0) 0
    writeZeros s (sector + 1) sectors

/-- `inode_create (sector, length)` -/
def inodeCreate (s : State) (sector : ℕ) (length : ℤ) : Option (Bool × State) :=
  if 0 ≤ length then
    let (ok, s) := malloc s
    if ok then do
      let sectors := bytesToSectors length
      match ← freeMapAllocate s sectors with
      | (none, s) => return (false, s)
      | (some start, s) =>
        let s ← diskWrite s sector (InodeDisk.toBytes ⟨start, length, INODE_MAGIC⟩) 0
        let s ← writeZeros s start sectors
        return (true, s)
    else some (false, s)
  else none

/-- `inode_remove (inode)` -/
def inodeRemove (s : State) (p : ℕ) : Option State := do
  let inode ← s.inodes p
  return { s with inodes := s.inodes.put p { inode with removed := true } }

/-- `file_write (file, buffer, size)` -/
def fileWrite (s : State) (file : ℕ) (buffer : Bytes) (size : ℕ) : Option (ℕ × State) := do
  let f ← s.files file
  let (written, s) ← inodeWriteAt s f.inode buffer size f.pos
  return (written, { s with files := s.files.put file { f with pos := f.pos + written } })

/-! ### Entries -/

/-- `NAME_MAX` -/
def NAME_MAX : ℕ := 14

/-- `sizeof (struct dir_entry)` -/
def ENTRY_SIZE : ℕ := 20

/-- `e.inode_sector` -/
def inodeSector (e : Bytes) : ℕ := e.load 0 4

/-- `e.name` -/
def entryName (e : Bytes) : List UInt8 :=
  ((List.range (NAME_MAX + 1)).map fun i ↦ e (4 + i)).takeWhile (· ≠ 0)

/-- `e.in_use` -/
def inUse (e : Bytes) : Bool := e 19 ≠ 0

/-- `strlcpy (dst, src, size)` for a destination in `e`. -/
def strlcpy (e : Bytes) (dst : ℕ) (src : List UInt8) (size : ℕ) : Bytes := fun x ↦
  if dst ≤ x ∧ x < dst + min src.length (size - 1) then src.getD (x - dst) 0
  else if x = dst + min src.length (size - 1) then 0
  else e x

/-- The entry that `dir_add` writes. -/
def fillEntry (e : Bytes) (name : List UInt8) (sector : ℕ) : Bytes :=
  (strlcpy (Function.update e 19 1) 4 name (NAME_MAX + 1)).store 0 4 sector

/-! ### Directories -/

/-- The loops of `lookup` and `dir_add`, for at most so many rounds: whether an entry has stopped it, the
entry and its offset. -/
def scan (stop : Bytes → Bool) : ℕ → State → ℕ → Bytes → ℕ → Option (Bool × Bytes × ℕ × State)
  | 0, s, _, e, ofs => some (false, e, ofs, s)
  | rounds + 1, s, inode, e, ofs => do
    let (bytesRead, e, s) ← inodeReadAt s inode e ENTRY_SIZE ofs
    if bytesRead = ENTRY_SIZE then
      if stop e then return (true, e, ofs, s)
      else scan stop rounds s inode e (ofs + ENTRY_SIZE)
    else return (false, e, ofs, s)

/-- The number of rounds that reads all entries. -/
def rounds (s : State) (inode : ℕ) : ℕ :=
  ((s.inodes inode).map fun inode ↦ inode.data.length.toNat / ENTRY_SIZE).getD 0 + 1

/-- `dir_create (sector, entry_cnt)` -/
def dirCreate (s : State) (sector entryCnt : ℕ) : Option (Bool × State) :=
  inodeCreate s sector (int32 (entryCnt * ENTRY_SIZE))

/-- `dir_open (inode)`: the directory, if any, and the state. -/
def dirOpen (s : State) (inode : Option ℕ) : Option (Option ℕ × State) :=
  let (ok, s) := malloc s
  match inode, ok with
  | some p, true => some (some p, s)
  | _, _ => (inodeClose s inode).map (none, ·)

/-- `dir_open_root ()` -/
def dirOpenRoot (s : State) : Option (Option ℕ × State) := do
  let (inode, s) ← inodeOpen s ROOT_DIR_SECTOR
  dirOpen s inode

/-- `dir_close (dir)` -/
def dirClose (s : State) (dir : Option ℕ) : Option State := inodeClose s dir

/-- `lookup (dir, name, ep, ofsp)`: the entry and its offset, if found, and the state. -/
def lookup (s : State) (dir : ℕ) (name : List UInt8) : Option (Option (Bytes × ℕ) × State) := do
  let (found, e, ofs, s) ← scan (fun e ↦ inUse e && name == entryName e) (rounds s dir) s dir
    (fun _ ↦ 0) 0
  return (if found then some (e, ofs) else none, s)

/-- `dir_lookup (dir, name, inode)`: the inode, if any, and the state. -/
def dirLookup (s : State) (dir : ℕ) (name : List UInt8) : Option (Option ℕ × State) := do
  match ← lookup s dir name with
  | (some (e, _), s) => inodeOpen s (inodeSector e)
  | (none, s) => return (none, s)

/-- `dir_add (dir, name, inode_sector)` -/
def dirAdd (s : State) (dir : ℕ) (name : List UInt8) (inodeSector : ℕ) : Option (Bool × State) :=
  if name = [] ∨ NAME_MAX < name.length then some (false, s)
  else do
    match ← lookup s dir name with
    | (some _, s) => return (false, s)
    | (none, s) =>
      let (_, e, ofs, s) ← scan (fun e ↦ !inUse e) (rounds s dir) s dir (fun _ ↦ 0) 0
      let (written, s) ← inodeWriteAt s dir (fillEntry e name inodeSector) ENTRY_SIZE ofs
      return (decide (written = ENTRY_SIZE), s)

/-- `dir_remove (dir, name)` -/
def dirRemove (s : State) (dir : ℕ) (name : List UInt8) : Option (Bool × State) := do
  match ← lookup s dir name with
  | (none, s) => return (false, s)
  | (some (e, ofs), s) =>
    match ← inodeOpen s (inodeSector e) with
    | (none, s) => return (false, s)
    | (some inode, s) =>
      let (written, s) ← inodeWriteAt s dir (Function.update e 19 0) ENTRY_SIZE ofs
      if written = ENTRY_SIZE then
        let s ← inodeRemove s inode
        let s ← inodeClose s (some inode)
        return (true, s)
      else
        let s ← inodeClose s (some inode)
        return (false, s)

/-! ### The file system -/

/-- `filesys_create (name, initial_size)` -/
def filesysCreate (s : State) (name : List UInt8) (initialSize : ℤ) : Option (Bool × State) := do
  let (dir, s) ← dirOpenRoot s
  match dir with
  | none => return (false, s)
  | some p =>
    match ← freeMapAllocate s 1 with
    | (none, s) => return (false, ← dirClose s dir)
    | (some sector, s) =>
      let (created, s) ← inodeCreate s sector initialSize
      let (success, s) ← if created then dirAdd s p name sector else some (false, s)
      let s ← if !success ∧ sector ≠ 0 then freeMapRelease s sector 1 else some s
      return (success, ← dirClose s dir)

/-- `filesys_open (name)`: the file, if any, and the state. -/
def filesysOpen (s : State) (name : List UInt8) : Option (Option ℕ × State) := do
  let (dir, s) ← dirOpenRoot s
  let (inode, s) ← match dir with
    | some dir => dirLookup s dir name
    | none => some (none, s)
  let s ← dirClose s dir
  fileOpen s inode

/-- `filesys_remove (name)` -/
def filesysRemove (s : State) (name : List UInt8) : Option (Bool × State) := do
  let (dir, s) ← dirOpenRoot s
  let (success, s) ← match dir with
    | some dir => dirRemove s dir name
    | none => some (false, s)
  return (success, ← dirClose s dir)

end Jungle.FileSys
