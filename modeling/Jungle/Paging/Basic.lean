import Jungle.Lib.Store
import Mathlib.Algebra.Group.Nat.Defs
import Mathlib.Data.Nat.Notation

/-!
# The page tables of the kernel

`threads/mmu.c` with the macros of `threads/pte.h` and `threads/vaddr.h`, and `paging_init` of
`threads/init.c`. Words and addresses are natural numbers below `2 ^ 64`. The store holds the pages
that are used as tables, by their kernel virtual addresses; a page is read and written at one of its
512 entries, and an access to a page that is not there faults, as does a failed `ASSERT`. The list
`supply` says what the next calls of `palloc_get_page` return: a free page, or `NULL`, also when the
list is used up. The TLB is left out.
-/

set_option autoImplicit false
set_option relaxedAutoImplicit false

namespace Jungle.Paging

open Jungle.Lib

/-! ### Words -/

/-- `PTE_P`, `PTE_W` and `PTE_U`, the flags of an entry. -/
def pteP : ℕ := 0x1
def pteW : ℕ := 0x2
def pteU : ℕ := 0x4

/-- `PGSIZE` -/
def pgSize : ℕ := 4096

/-- `KERN_BASE`, where the kernel maps physical memory. -/
def kernBase : ℕ := 0x8004000000

/-- The index of a virtual address in the table of each level. -/
def pml4 (la : ℕ) : ℕ := (la >>> 39) &&& 0x1FF
def pdpe (la : ℕ) : ℕ := (la >>> 30) &&& 0x1FF
def pdx (la : ℕ) : ℕ := (la >>> 21) &&& 0x1FF
def ptx (la : ℕ) : ℕ := (la >>> 12) &&& 0x1FF

/-- `pg_ofs(va)` -/
def pgOfs (va : ℕ) : ℕ := va &&& 0xFFF

/-- `PTE_ADDR(pte)`, which is `pte & ~0xFFF`. -/
def pteAddr (pte : ℕ) : ℕ := pte - (pte &&& 0xFFF)

/-- `pte & PTE_P` -/
def present (pte : ℕ) : Bool := pte &&& pteP ≠ 0

/-- `pte & ~PTE_P` -/
def clearP (pte : ℕ) : ℕ := pte - (pte &&& pteP)

/-- `is_user_vaddr(vaddr)` -/
def isUserVaddr (vaddr : ℕ) : Bool := vaddr < kernBase

/-- `ptov(paddr)` -/
def ptov (paddr : ℕ) : ℕ := (paddr + kernBase) % 2 ^ 64

/-- `vtop(vaddr)` of a kernel virtual address. -/
def vtop (vaddr : ℕ) : ℕ := vaddr - kernBase

/-! ### Memory -/

/-- The pages in use as tables and the results of the next calls of `palloc_get_page`. -/
structure Machine where
  pages : Store (ℕ → ℕ)
  supply : List (Option ℕ)

/-- A page that `palloc_get_page` can return. -/
def IsFreePage (s : Machine) (page : ℕ) : Prop :=
  kernBase ≤ page ∧ page < 2 ^ 64 ∧ pgOfs page = 0 ∧ s.pages page = none

instance (s : Machine) (page : ℕ) : Decidable (IsFreePage s page) :=
  inferInstanceAs (Decidable (_ ∧ _ ∧ _ ∧ _))

/-- `palloc_get_page (PAL_ZERO)` -/
def pallocGetPage (s : Machine) : Option (Option ℕ × Machine) :=
  match s.supply with
  | [] => some (none, s)
  | none :: supply => some (none, { s with supply := supply })
  | some page :: supply =>
    if IsFreePage s page then some (some page, ⟨s.pages.put page fun _ ↦ 0, supply⟩) else none

/-- `palloc_free_page (page)` -/
def pallocFreePage (s : Machine) (page : ℕ) : Option Machine := do
  let _ ← s.pages page
  return { s with pages := s.pages.free page }

/-- `table[idx]` -/
def readEntry (s : Machine) (table idx : ℕ) : Option ℕ := (s.pages table).map fun page ↦ page idx

/-- `table[idx] = entry` -/
def writeEntry (s : Machine) (table idx entry : ℕ) : Option Machine := do
  let page ← s.pages table
  return { s with pages := s.pages.put table (Function.update page idx entry) }

/-! ### Walks -/

/-- A pointer to an entry of a page. -/
structure Slot where
  table : ℕ
  idx : ℕ
deriving DecidableEq, Repr

/-- The common part of the walks: goes on from the entry `idx` of `table` with `next`, after it has
put a new table there if need be. The new table is given back when `next` fails. -/
def walkLevel (next : Machine → ℕ → Option (Option Slot × Machine)) (s : Machine) (table idx : ℕ)
    (create : Bool) : Option (Option Slot × Machine) := do
  if table = 0 then return (none, s)
  let entry ← readEntry s table idx
  if present entry then next s (ptov (pteAddr entry))
  else if create then
    match ← pallocGetPage s with
    | (none, s) => return (none, s)
    | (some newPage, s) =>
      let s ← writeEntry s table idx (vtop newPage ||| pteU ||| pteW ||| pteP)
      let entry ← readEntry s table idx
      match ← next s (ptov (pteAddr entry)) with
      | (some pte, s) => return (some pte, s)
      | (none, s) =>
        let entry ← readEntry s table idx
        let s ← pallocFreePage s (ptov (pteAddr entry))
        let s ← writeEntry s table idx 0
        return (none, s)
  else return (none, s)

/-- `pgdir_walk(pdp, va, create)`; its last step does not fail. -/
def pgdirWalk (s : Machine) (pdp va : ℕ) (create : Bool) : Option (Option Slot × Machine) :=
  walkLevel (fun s pt ↦ some (some ⟨pt, ptx va⟩, s)) s pdp (pdx va) create

/-- `pdpe_walk(pdpe, va, create)` -/
def pdpeWalk (s : Machine) (pdpe va : ℕ) (create : Bool) : Option (Option Slot × Machine) :=
  walkLevel (fun s pdp ↦ pgdirWalk s pdp va create) s pdpe (Paging.pdpe va) create

/-- `pml4e_walk(pml4e, va, create)` -/
def pml4eWalk (s : Machine) (pml4e va : ℕ) (create : Bool) : Option (Option Slot × Machine) :=
  walkLevel (fun s pdpe ↦ pdpeWalk s pdpe va create) s pml4e (pml4 va) create

/-! ### The operations -/

/-- `pml4_create()` with the global `base_pml4`. -/
def pml4Create (s : Machine) (basePml4 : ℕ) : Option (Option ℕ × Machine) := do
  match ← pallocGetPage s with
  | (none, s) => return (none, s)
  | (some pml4, s) =>
    let base ← s.pages basePml4
    return (some pml4, { s with pages := s.pages.put pml4 base })

/-- `pml4_get_page(pml4, uaddr)` -/
def pml4GetPage (s : Machine) (pml4 uaddr : ℕ) : Option (Option ℕ) := do
  guard (isUserVaddr uaddr)
  match ← pml4eWalk s pml4 uaddr false with
  | (none, _) => return none
  | (some pte, s) =>
    let entry ← readEntry s pte.table pte.idx
    if present entry then return some (ptov (pteAddr entry) + pgOfs uaddr) else return none

/-- `pml4_set_page(pml4, upage, kpage, rw)` with the global `base_pml4`. -/
def pml4SetPage (s : Machine) (basePml4 pml4 upage kpage : ℕ) (rw : Bool) :
    Option (Bool × Machine) := do
  guard (pgOfs upage = 0 ∧ pgOfs kpage = 0 ∧ isUserVaddr upage ∧ pml4 ≠ basePml4)
  match ← pml4eWalk s pml4 upage true with
  | (none, s) => return (false, s)
  | (some pte, s) =>
    guard (kernBase ≤ kpage)
    let s ← writeEntry s pte.table pte.idx
      (vtop kpage ||| pteP ||| (if rw then pteW else 0) ||| pteU)
    return (true, s)

/-- `pml4_clear_page(pml4, upage)` -/
def pml4ClearPage (s : Machine) (pml4 upage : ℕ) : Option Machine := do
  guard (pgOfs upage = 0 ∧ isUserVaddr upage)
  match ← pml4eWalk s pml4 upage false with
  | (none, s) => return s
  | (some pte, s) =>
    let entry ← readEntry s pte.table pte.idx
    if present entry then writeEntry s pte.table pte.idx (clearP entry) else return s

/-! ### The kernel's mapping -/

/-- Where the linker puts the start and the end of the kernel's text. -/
structure Kernel where
  start : ℕ
  endKernelText : ℕ

/-- One round of the loop of `paging_init`: maps the physical page `pa`. -/
def mapKernelPage (kernel : Kernel) (pml4 : ℕ) (s : Machine) (pa : ℕ) : Option Machine := do
  let va := ptov pa
  let perm := if kernel.start ≤ va ∧ va < kernel.endKernelText then pteP else pteP ||| pteW
  match ← pml4eWalk s pml4 va true with
  | (none, s) => return s
  | (some pte, s) => writeEntry s pte.table pte.idx (pa ||| perm)

/-- The physical pages below `memEnd`. -/
def physicalPages (memEnd : ℕ) : List ℕ :=
  (List.range ((memEnd + (pgSize - 1)) / pgSize)).map fun n ↦ pgSize * n

/-- `paging_init(mem_end)`: the page that `base_pml4` points to, and the machine. The call panics if
there is no page for it. -/
def pagingInit (kernel : Kernel) (s : Machine) (memEnd : ℕ) : Option (ℕ × Machine) := do
  match ← pallocGetPage s with
  | (none, _) => none
  | (some pml4, s) =>
    let s ← (physicalPages memEnd).foldlM (mapKernelPage kernel pml4) s
    return (pml4, s)

end Jungle.Paging
