import Jungle.KernelList.Runs

/-!
# The scheduler

`pintos/threads/thread.c`. A thread is the address of its page; its `elem` is a cell of a kernel list,
one cell for the ready list, the destruction list and the list of a semaphore. A call faults, with
`none`, where an `ASSERT` fails. Interrupts are off in each of these functions but for
`thread_create`, which is split where it takes `tid_lock`: before that it allocates and initialises the
thread, after that it calls `thread_unblock`. What `sema_down` and `sema_up` do with threads is modelled
too. Names, priorities, saved registers and address spaces are left out. The trace of what has happened
is there for the statements only.
-/

set_option autoImplicit false
set_option relaxedAutoImplicit false

namespace Jungle.Scheduler

open Jungle.Lib Jungle.KernelList

/-- `enum thread_status` -/
inductive Status
  | running
  | ready
  | blocked
  | dying
deriving DecidableEq, Repr

/-- The lists of threads: `ready_list`, `destruction_req` and the waiters of a semaphore. -/
inductive ListName
  | ready
  | destruction
  | waiters (sema : ℕ)
deriving DecidableEq, Repr

/-- What happens to threads. -/
inductive Event
  /-- a thread is put on the ready list -/
  | entered (t : ℕ)
  /-- a thread is taken off the ready list -/
  | left (t : ℕ)
  /-- a thread is put on the destruction list -/
  | died (t : ℕ)
  /-- the page of a thread is freed -/
  | freed (t : ℕ)
deriving DecidableEq, Repr

/-- The offset of `elem` in `struct thread`. -/
def elemOffset : ℕ := 32

/-- `&t->elem` -/
def elemOf (t : ℕ) : ℕ := t + elemOffset

/-- `list_entry (e, struct thread, elem)` -/
def threadOf (e : ℕ) : ℕ := e - elemOffset

/-- The cells of the lists, the status of the threads, and the running, the idle and the initial
thread. -/
structure Kernel where
  elems : Elems
  status : ℕ → Option Status
  current : ℕ
  idleThread : ℕ
  initialThread : ℕ
  trace : List Event

/-- `t->status = status` -/
def Kernel.setStatus (s : Kernel) (t : ℕ) (status : Status) : Kernel :=
  { s with status := Function.update s.status t (some status) }

/-- Something happens. -/
def Kernel.note (s : Kernel) (e : Event) : Kernel := { s with trace := s.trace ++ [e] }

/-- `list_push_back (list, &t->elem)` -/
def pushBack (lists : ListName → KList) (s : Kernel) (list : ListName) (t : ℕ) : Option Kernel := do
  let m ← listPushBack s.elems (lists list) (elemOf t)
  return { s with elems := m }

/-- `list_entry (list_pop_front (list), struct thread, elem)` -/
def popFront (lists : ListName → KList) (s : Kernel) (list : ListName) : Option (ℕ × Kernel) := do
  let (e, m) ← listPopFront s.elems (lists list)
  return (threadOf e, { s with elems := m })

/-- `next_thread_to_run ()` -/
def nextThreadToRun (lists : ListName → KList) (s : Kernel) : Option (ℕ × Kernel) := do
  if ← listEmpty s.elems (lists .ready) then return (s.idleThread, s)
  else
    let (next, s) ← popFront lists s .ready
    return (next, s.note (.left next))

/-- `schedule ()` -/
def schedule (lists : ListName → KList) (s : Kernel) : Option Kernel := do
  let curr := s.current
  let (next, s) ← nextThreadToRun lists s
  assert (s.status curr ≠ some .running)
  assert (s.status next).isSome
  let s := s.setStatus next .running
  if curr ≠ next then
    if s.status curr = some .dying ∧ curr ≠ s.initialThread then
      let s ← pushBack lists s .destruction curr
      return { s.note (.died curr) with current := next }
    else return { s with current := next }
  else return s

/-- `palloc_free_page (victim)` -/
def freePage (s : Kernel) (victim : ℕ) : Kernel :=
  { s.note (.freed victim) with
    elems := s.elems.free (elemOf victim)
    status := Function.update s.status victim none }

/-- A round of the loop of `do_schedule`. -/
def reapBody (lists : ListName → KList) (s : Kernel) : Option (Kernel ⊕ Kernel) := do
  if ← listEmpty s.elems (lists .destruction) then return .inr s
  else
    let (victim, s) ← popFront lists s .destruction
    return .inl (freePage s victim)

/-- `do_schedule (status)` -/
def doSchedule (lists : ListName → KList) (fuel : ℕ) (s : Kernel) (status : Status) :
    Option Kernel := do
  assert (s.status s.current = some .running)
  let s ← whileLoop (reapBody lists) fuel s
  schedule lists (s.setStatus s.current status)

/-- `thread_block ()` -/
def threadBlock (lists : ListName → KList) (s : Kernel) : Option Kernel := do
  assert (s.status s.current = some .running)
  schedule lists (s.setStatus s.current .blocked)

/-- `thread_unblock (t)` -/
def threadUnblock (lists : ListName → KList) (s : Kernel) (t : ℕ) : Option Kernel := do
  assert (s.status t = some .blocked)
  let s ← pushBack lists s .ready t
  return (s.note (.entered t)).setStatus t .ready

/-- `thread_yield ()` -/
def threadYield (lists : ListName → KList) (fuel : ℕ) (s : Kernel) : Option Kernel := do
  let curr := s.current
  assert (s.status curr = some .running)
  if curr ≠ s.idleThread then
    let s ← pushBack lists s .ready curr
    doSchedule lists fuel (s.note (.entered curr)) .ready
  else doSchedule lists fuel s .ready

/-- `thread_exit ()` -/
def threadExit (lists : ListName → KList) (fuel : ℕ) (s : Kernel) : Option Kernel :=
  doSchedule lists fuel s .dying

/-- `thread_create`, up to `allocate_tid`; `page` is what `palloc_get_page` returns. -/
def threadCreate (s : Kernel) (page : Option ℕ) : Kernel :=
  match page with
  | none => s
  | some t => { s.setStatus t .blocked with elems := s.elems.put (elemOf t) ⟨none, none⟩ }

/-- A round of the loop of `sema_down` that blocks. -/
def semaWait (lists : ListName → KList) (s : Kernel) (sema : ℕ) : Option Kernel := do
  let s ← pushBack lists s (.waiters sema) s.current
  threadBlock lists s

/-- What `sema_up` does with threads. -/
def semaWake (lists : ListName → KList) (s : Kernel) (sema : ℕ) : Option Kernel := do
  if ← listEmpty s.elems (lists (.waiters sema)) then return s
  else
    let (t, s) ← popFront lists s (.waiters sema)
    threadUnblock lists s t

end Jungle.Scheduler
