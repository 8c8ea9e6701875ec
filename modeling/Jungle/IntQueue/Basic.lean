import Jungle.Lib.RingBuffer
import Jungle.Threads.Synch

/-!
# Interrupt queues

`pintos/devices/intq.c`. Threads call `intq_getc` with interrupts off, an interrupt handler calls
`intq_putc`. A thread is preempted only where it blocks: in the `sema_down` of `lock_acquire` and in
`wait`. What it does from one such point to the next is one function here. A call faults, with `none`,
where an `ASSERT` fails; that interrupts are off and that the caller of `intq_getc` is no interrupt
handler is left out, and so are calls of `intq_putc` by threads. The bytes put and the bytes returned
so far are there for the statements only.
-/

set_option autoImplicit false
set_option relaxedAutoImplicit false

namespace Jungle.IntQueue

open Jungle.Lib Jungle.Threads

/-- `INTQ_BUFSIZE` -/
def intqBufsize : ℕ := 64

/-- `struct lock` -/
structure Lock where
  holder : Option ℕ
  semaphore : Semaphore

/-- `struct intq` -/
structure Intq where
  lock : Lock
  notFull : Option ℕ
  notEmpty : Option ℕ
  buf : ℕ → UInt8
  head : ℕ
  tail : ℕ

/-- The members of `struct intq` that name a waiting thread. -/
inductive Waiter
  | notFull
  | notEmpty
deriving DecidableEq, Repr

/-- Where a thread is. -/
inductive Point
  /-- not in `intq_getc` -/
  | outside
  /-- in the loop of the `sema_down` of `lock_acquire` -/
  | locking
  /-- in `thread_block`, called by `wait` -/
  | waiting
deriving DecidableEq, Repr

/-- The queue, the threads whose status is `THREAD_BLOCKED`, where each thread is, and the bytes put and
returned. -/
structure State where
  q : Intq
  blocked : ℕ → Bool
  point : ℕ → Point
  put : List UInt8
  got : List UInt8

/-- `ASSERT (condition)` -/
def assert (condition : Bool) : Option Unit := if condition then some () else none

/-- `intq_init (q)` -/
def intqInit (buf : ℕ → UInt8) : Intq where
  lock := ⟨none, ⟨1, []⟩⟩
  notFull := none
  notEmpty := none
  buf := buf
  head := 0
  tail := 0

/-- `next (pos)` -/
def next (pos : ℕ) : ℕ := RingBuffer.advance intqBufsize pos

/-- `intq_empty (q)` -/
def intqEmpty (q : Intq) : Bool := q.head = q.tail

/-- `intq_full (q)` -/
def intqFull (q : Intq) : Bool := next q.head = q.tail

/-- `*waiter` -/
def Intq.waiter (q : Intq) : Waiter → Option ℕ
  | .notFull => q.notFull
  | .notEmpty => q.notEmpty

/-- `*waiter = t` -/
def Intq.setWaiter (q : Intq) (waiter : Waiter) (t : Option ℕ) : Intq :=
  match waiter with
  | .notFull => { q with notFull := t }
  | .notEmpty => { q with notEmpty := t }

/-- `thread_block ()`, called by `t` -/
def threadBlock (s : State) (t : ℕ) (point : Point) : State :=
  { s with
    blocked := Function.update s.blocked t true
    point := Function.update s.point t point }

/-- `thread_unblock (t)` -/
def threadUnblock (s : State) (t : ℕ) : Option State := do
  assert (s.blocked t)
  return { s with blocked := Function.update s.blocked t false }

/-- The condition of a waiter. -/
def holds (q : Intq) : Waiter → Bool
  | .notFull => !intqFull q
  | .notEmpty => !intqEmpty q

/-- `wait (q, waiter)`, called by `t`, up to where it blocks -/
def wait (s : State) (t : ℕ) (waiter : Waiter) : Option State := do
  assert (!holds s.q waiter)
  return threadBlock { s with q := s.q.setWaiter waiter (some t) } t .waiting

/-- `signal (q, waiter)` -/
def signal (s : State) (waiter : Waiter) : Option State := do
  assert (holds s.q waiter)
  match s.q.waiter waiter with
  | none => return s
  | some t =>
    let s ← threadUnblock s t
    return { s with q := s.q.setWaiter waiter none }

/-- `sema_up (&q->lock.semaphore)` -/
def semaUp (s : State) : Option State := do
  let sema := s.q.lock.semaphore
  let s ← match sema.waiters with
    | [] => some s
    | w :: _ => threadUnblock s w
  return { s with
    q := { s.q with lock.semaphore := ⟨(sema.value + 1) % unsignedSize, sema.waiters.tail⟩ } }

/-- `lock_release (&q->lock)` -/
def lockRelease (s : State) (t : ℕ) : Option State := do
  assert (s.q.lock.holder = some t)
  semaUp { s with q := { s.q with lock.holder := none } }

/-- The loop of the `sema_down` of `lock_acquire`, and then the call of `wait`, up to where the thread
blocks -/
def lockWait (s : State) (t : ℕ) : Option State :=
  let sema := s.q.lock.semaphore
  if sema.value = 0 then
    some (threadBlock
      { s with q := { s.q with lock.semaphore := { sema with waiters := sema.waiters ++ [t] } } }
      t .locking)
  else
    wait { s with q := { s.q with lock := ⟨some t, { sema with value := sema.value - 1 }⟩ } } t
      .notEmpty

/-- `intq_getc (q)`, called by `t`, from the test of the loop up to where the thread blocks or returns -/
def intqGetc (s : State) (t : ℕ) : Option State :=
  if intqEmpty s.q then do
    assert (s.q.lock.holder ≠ some t)
    lockWait s t
  else do
    let byte := s.q.buf s.q.tail
    let s ← signal { s with q := { s.q with tail := next s.q.tail } } .notFull
    return { s with point := Function.update s.point t .outside, got := s.got ++ [byte] }

/-- `intq_putc (q, byte)`, called by an interrupt handler -/
def intqPutc (s : State) (byte : UInt8) : Option State := do
  assert (!intqFull s.q)
  let s := { s with
    q := { s.q with buf := Function.update s.q.buf s.q.head byte, head := next s.q.head }
    put := s.put ++ [byte] }
  signal s .notEmpty

end Jungle.IntQueue
