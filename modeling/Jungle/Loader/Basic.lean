import Jungle.FileSys.Basic
import Jungle.Paging.Basic

/-!
# The loading of a segment

The case of `PT_LOAD` in `load` of `pintos/userprog/process.c`, with `validate_segment`, `load_segment` and
`install_page`, for the build without virtual memory. The fields of a header have 64 bits, `read_bytes`
and `zero_bytes` 32. `content` holds the bytes of the pages of the user pool, by their addresses; a page
that is given back to the pool is left as it is.
-/

set_option autoImplicit false
set_option relaxedAutoImplicit false

namespace Jungle.Loader

open Jungle.Lib Jungle.Paging

/-- `PF_W` -/
def PF_W : ℕ := 2

/-- `pg_ofs(va)`, which is `va & PGMASK`. -/
def pageOfs (va : ℕ) : ℕ := va % pgSize

/-- `ROUND_UP(x, PGSIZE)` -/
def roundUp (x : ℕ) : ℕ := (x + pgSize - 1) % 2 ^ 64 / pgSize * pgSize

/-- `struct ELF64_PHDR`, without its type. -/
structure Phdr where
  flags : ℕ
  offset : ℕ
  vaddr : ℕ
  filesz : ℕ
  memsz : ℕ
deriving DecidableEq, Repr

/-- The file system, the page tables, `base_pml4`, the table of the process, the pages of the user pool
and what the next calls of `palloc_get_page (PAL_USER)` return. -/
structure Process where
  fs : FileSys.State
  machine : Machine
  basePml4 : ℕ
  pml4 : ℕ
  content : ℕ → Bytes
  userPages : List (Option ℕ)

/-- `validate_segment(phdr, file)` for the length of the file. -/
def validateSegment (phdr : Phdr) (fileLength : ℤ) : Bool :=
  pageOfs phdr.offset = pageOfs phdr.vaddr ∧
    phdr.offset ≤ (fileLength % 2 ^ 64).toNat ∧
    phdr.filesz ≤ phdr.memsz ∧
    phdr.memsz ≠ 0 ∧
    isUserVaddr phdr.vaddr ∧
    isUserVaddr ((phdr.vaddr + phdr.memsz) % 2 ^ 64) ∧
    phdr.vaddr ≤ (phdr.vaddr + phdr.memsz) % 2 ^ 64 ∧
    pgSize ≤ phdr.vaddr

/-- `palloc_get_page (PAL_USER)` -/
def pallocUserPage (s : Process) : Option ℕ × Process :=
  match s.userPages with
  | [] => (none, s)
  | page :: userPages => (page, { s with userPages := userPages })

/-- `install_page(upage, kpage, writable)` -/
def installPage (s : Process) (upage kpage : ℕ) (writable : Bool) : Option (Bool × Process) := do
  match ← pml4GetPage s.machine s.pml4 upage with
  | some _ => return (false, s)
  | none =>
    let (ok, machine) ← pml4SetPage s.machine s.basePml4 s.pml4 upage kpage writable
    return (ok, { s with machine := machine })

/-- The loop of `load_segment`. -/
def loadLoop : ℕ → Process → ℕ → ℕ → ℕ → ℕ → Bool → Option (Bool × Process)
  | 0, _, _, _, _, _, _ => none
  | fuel + 1, s, file, upage, readBytes, zeroBytes, writable =>
    if 0 < readBytes ∨ 0 < zeroBytes then do
      let pageReadBytes := if readBytes < pgSize then readBytes else pgSize
      let pageZeroBytes := pgSize - pageReadBytes
      match pallocUserPage s with
      | (none, s) => return (false, s)
      | (some kpage, s) =>
        let (bytesRead, page, fs) ← FileSys.fileRead s.fs file (s.content kpage) pageReadBytes
        if bytesRead ≠ pageReadBytes then
          return (false, { s with fs := fs, content := Function.update s.content kpage page })
        let page := fun i ↦ if pageReadBytes ≤ i ∧ i < pageReadBytes + pageZeroBytes then 0 else page i
        let s := { s with fs := fs, content := Function.update s.content kpage page }
        let (ok, s) ← installPage s upage kpage writable
        if ok then
          loadLoop fuel s file ((upage + pgSize) % 2 ^ 64) (readBytes - pageReadBytes)
            ((zeroBytes + 2 ^ 32 - pageZeroBytes) % 2 ^ 32) writable
        else return (false, s)
    else return (true, s)

/-- `load_segment(file, ofs, upage, read_bytes, zero_bytes, writable)` -/
def loadSegment (fuel : ℕ) (s : Process) (file : ℕ) (ofs : ℤ) (upage readBytes zeroBytes : ℕ)
    (writable : Bool) : Option (Bool × Process) :=
  if (readBytes + zeroBytes) % 2 ^ 32 % pgSize = 0 ∧ pageOfs upage = 0 ∧ ofs.tmod pgSize = 0 then do
    let fs ← FileSys.fileSeek s.fs file ofs
    loadLoop fuel { s with fs := fs } file upage readBytes zeroBytes writable
  else none

/-- `read_bytes` -/
def readBytes (phdr : Phdr) : ℕ :=
  if 0 < phdr.filesz then (pageOfs phdr.vaddr + phdr.filesz) % 2 ^ 32 else 0

/-- `zero_bytes` -/
def zeroBytes (phdr : Phdr) : ℕ :=
  if 0 < phdr.filesz then
    (roundUp ((pageOfs phdr.vaddr + phdr.memsz) % 2 ^ 64) + 2 ^ 64 - readBytes phdr) % 2 ^ 64 % 2 ^ 32
  else roundUp ((pageOfs phdr.vaddr + phdr.memsz) % 2 ^ 64) % 2 ^ 32

/-- The case of `PT_LOAD`: whether `load` goes on, and the state. -/
def loadPhdr (fuel : ℕ) (s : Process) (file : ℕ) (phdr : Phdr) : Option (Bool × Process) := do
  if validateSegment phdr (← FileSys.fileLength s.fs file) then
    let writable := phdr.flags / PF_W % 2 = 1
    let filePage := phdr.offset - pageOfs phdr.offset
    let memPage := phdr.vaddr - pageOfs phdr.vaddr
    loadSegment fuel s file (int32 filePage) memPage (readBytes phdr) (zeroBytes phdr) writable
  else return (false, s)

end Jungle.Loader
