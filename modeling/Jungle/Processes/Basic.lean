import Jungle.Paging.Destroy
import Jungle.Paging.Isolation

/-!
# The memory of processes

What `pintos/userprog/process.c` does with pages, in the build without virtual memory: `install_page`,
`setup_stack`, `load_segment`, `load` and `process_cleanup`, over the page tables. The pages that are mapped for
a user are pages of the store, too. What `file_read` and `memset` leave in a page is given, as are the headers
of the segments that `load` has read.
-/

set_option autoImplicit false
set_option relaxedAutoImplicit false

namespace Jungle.Processes

open Jungle.Lib Jungle.Paging

/-- `USER_STACK` -/
def userStack : ℕ := 0x47480000

/-! ### Pages -/

/-- `install_page (upage, kpage, writable)` for the table of the thread. -/
def installPage (s : Machine) (basePml4 pml4 upage kpage : ℕ) (writable : Bool) :
    Option (Bool × Machine) := do
  match ← pml4GetPage s pml4 upage with
  | some _ => return (false, s)
  | none => pml4SetPage s basePml4 pml4 upage kpage writable

/-- The common part of `setup_stack` and of a round of `load_segment`: gets a page, fills it and installs it,
or gives it back. The page is filled with `fill`, unless there is none, because `file_read` gets too few
bytes. -/
def addPage (s : Machine) (basePml4 pml4 upage : ℕ) (fill : Option (ℕ → ℕ)) (writable : Bool) :
    Option (Bool × Machine) := do
  match ← pallocGetPage s with
  | (none, s) => return (false, s)
  | (some kpage, s) =>
    match fill with
    | none =>
      let s ← pallocFreePage s kpage
      return (false, s)
    | some contents =>
      match ← installPage { s with pages := s.pages.put kpage contents } basePml4 pml4 upage kpage writable with
      | (true, s) => return (true, s)
      | (false, s) =>
        let s ← pallocFreePage s kpage
        return (false, s)

/-- `setup_stack (if_)` -/
def setupStack (s : Machine) (basePml4 pml4 : ℕ) : Option (Bool × Machine) :=
  addPage s basePml4 pml4 (userStack - pgSize) (some fun _ ↦ 0) true

/-- The loop of `load_segment`, for what its rounds put into the pages. -/
def loadSegment (s : Machine) (basePml4 pml4 upage : ℕ) (fills : List (Option (ℕ → ℕ))) (writable : Bool) :
    Option (Bool × Machine) :=
  match fills with
  | [] => some (true, s)
  | fill :: fills => do
    match ← addPage s basePml4 pml4 upage fill writable with
    | (true, s) => loadSegment s basePml4 pml4 (upage + pgSize) fills writable
    | (false, s) => return (false, s)

/-! ### Programs -/

/-- A segment of a program: where its pages go, what they hold, and whether they may be written. -/
structure Segment where
  upage : ℕ
  fills : List (Option (ℕ → ℕ))
  writable : Bool

/-- The loop of `load` over the program headers; it ends at the first segment that cannot be loaded. -/
def loadSegments (s : Machine) (basePml4 pml4 : ℕ) (segments : List Segment) : Option (Bool × Machine) :=
  match segments with
  | [] => some (true, s)
  | segment :: segments => do
    match ← loadSegment s basePml4 pml4 segment.upage segment.fills segment.writable with
    | (true, s) => loadSegments s basePml4 pml4 segments
    | (false, s) => return (false, s)

/-- `load (file_name, if_)`: whether it succeeds, the table that the thread then has, and the machine. -/
def load (s : Machine) (basePml4 : ℕ) (segments : List Segment) : Option (Bool × Option ℕ × Machine) := do
  match ← pml4Create s basePml4 with
  | (none, s) => return (false, none, s)
  | (some pml4, s) =>
    match ← loadSegments s basePml4 pml4 segments with
    | (false, s) => return (false, some pml4, s)
    | (true, s) =>
      let (success, s) ← setupStack s basePml4 pml4
      return (success, some pml4, s)

/-- `process_cleanup ()` of a thread with the table, if it has one. -/
def processCleanup (s : Machine) (basePml4 : ℕ) (pml4 : Option ℕ) : Option Machine :=
  match pml4 with
  | none => some s
  | some pml4 => pml4Destroy s basePml4 pml4

/-! ### Steps -/

/-- What is done to the pages, one page at a time, for any process. -/
inductive Act
  | create
  | addPage (pml4 upage : ℕ)
  | store (pml4 upage : ℕ)
  | destroy (pml4 : ℕ)

/-- The steps of all processes, each with any result of the calls of `palloc_get_page`: a table is made; a page
is added behind the first entry of a table, which is below `2 ^ 39`, and fails or not; a program writes to a
page that is mapped for it; a table is destroyed. -/
inductive Step (base : ℕ) : System → Act → System → Prop
  | create {s s' : Machine} {tables : List ℕ} {supply : List (Option ℕ)} {pml4 : Option ℕ}
      (hcreate : pml4Create (s.supplied supply) base = some (pml4, s')) :
      Step base ⟨s, tables⟩ .create ⟨s', pml4.toList ++ tables⟩
  | addPage {s s' : Machine} {tables : List ℕ} {supply : List (Option ℕ)} {pml4 upage : ℕ}
      {fill : Option (ℕ → ℕ)} {writable ok : Bool} (hpml4 : pml4 ∈ tables) (hupage : upage < 2 ^ 39)
      (hadd : Processes.addPage (s.supplied supply) base pml4 upage fill writable = some (ok, s')) :
      Step base ⟨s, tables⟩ (.addPage pml4 upage) ⟨s', tables⟩
  | store {s : Machine} {tables : List ℕ} {pml4 upage kpage : ℕ} {contents : ℕ → ℕ} (hpml4 : pml4 ∈ tables)
      (hupage : upage < 2 ^ 39) (haligned : pgOfs upage = 0)
      (hget : pml4GetPage s pml4 upage = some (some kpage)) :
      Step base ⟨s, tables⟩ (.store pml4 upage) ⟨{ s with pages := s.pages.put kpage contents }, tables⟩
  | destroy {s s' : Machine} {tables : List ℕ} {pml4 : ℕ} (hpml4 : pml4 ∈ tables)
      (hdestroy : pml4Destroy s base pml4 = some s') :
      Step base ⟨s, tables⟩ (.destroy pml4) ⟨s', tables.filter (· ≠ pml4)⟩

end Jungle.Processes
