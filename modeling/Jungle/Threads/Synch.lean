import Jungle.Lib.Run
import Mathlib.Algebra.Group.Nat.Defs
import Mathlib.Data.List.Count
import Mathlib.Logic.Function.Basic

/-!
# Semaphores, locks and conditions

`pintos/threads/synch.c`. A call is the list of operations that it makes between the points where the
thread can be preempted: what runs with interrupts off is one operation, and `sema_down` gives way to
other threads where it blocks. Threads, semaphores, locks and conditions are named by their addresses;
`lockOf` is the lock that a condition is used with. The lists of threads are lists of names here. A
step fails, with `none`, where an `ASSERT` does; that pointers are not null and that the caller is no
interrupt handler is left out.
-/

set_option autoImplicit false
set_option relaxedAutoImplicit false

namespace Jungle.Threads

/-- The values of an `unsigned`. -/
def unsignedSize : ℕ := 2 ^ 32

/-- `struct semaphore` -/
structure Semaphore where
  value : ℕ
  waiters : List ℕ
deriving DecidableEq, Repr

/-- A semaphore: one of a caller, that of a lock, and that of the `struct semaphore_elem` in the frame
of a thread in `cond_wait`. -/
inductive SemaRef
  | sema (s : ℕ)
  | lock (l : ℕ)
  | waiter (t : ℕ)
deriving DecidableEq, Repr

/-- What a thread does without being preempted. -/
inductive Op
  /-- `sema_init (r, value)` -/
  | semaInit (r : SemaRef) (value : ℕ)
  /-- the test of the loop of `sema_down`, for the first time -/
  | semaDown (r : SemaRef)
  /-- the test of the loop of `sema_down` after `thread_block` -/
  | semaRetest (r : SemaRef)
  /-- `sema_try_down (s)` -/
  | semaTryDown (s : ℕ)
  /-- `sema_up (r)` -/
  | semaUp (r : SemaRef)
  /-- `success = sema_try_down (&lock->semaphore)` and the test of `success` -/
  | lockTryDown (l : ℕ)
  /-- `lock->holder = thread_current ()` -/
  | setHolder (l : ℕ)
  /-- `lock->holder = NULL` -/
  | clearHolder (l : ℕ)
  /-- `ASSERT (lock_held_by_current_thread (lock))` -/
  | assertHeld (l : ℕ)
  /-- `ASSERT (!lock_held_by_current_thread (lock))` -/
  | assertNotHeld (l : ℕ)
  /-- `list_push_back (&cond->waiters, &waiter.elem)` -/
  | pushWaiter (c : ℕ)
  /-- the test of `cond_signal` -/
  | signalTest (c : ℕ)
  /-- `list_pop_front (&cond->waiters)` in `cond_signal` -/
  | signalPop (c : ℕ)
  /-- the test of the loop of `cond_broadcast` -/
  | signalAll (c : ℕ)
deriving DecidableEq

/-- The calls. -/
inductive Call
  | semaDown (s : ℕ)
  | semaTryDown (s : ℕ)
  | semaUp (s : ℕ)
  | lockAcquire (l : ℕ)
  | lockTryAcquire (l : ℕ)
  | lockRelease (l : ℕ)
  | condWait (c : ℕ)
  | condSignal (c : ℕ)
  | condBroadcast (c : ℕ)
deriving DecidableEq

/-- `lock_acquire (lock)` -/
def lockAcquire (l : ℕ) : List Op := [.assertNotHeld l, .semaDown (.lock l), .setHolder l]

/-- `lock_try_acquire (lock)` -/
def lockTryAcquire (l : ℕ) : List Op := [.assertNotHeld l, .lockTryDown l]

/-- `lock_release (lock)` -/
def lockRelease (l : ℕ) : List Op := [.assertHeld l, .clearHolder l, .semaUp (.lock l)]

/-- `cond_wait (cond, lock)`, called by `t` -/
def condWait (t c l : ℕ) : List Op :=
  [.assertHeld l, .semaInit (.waiter t) 0, .pushWaiter c] ++ lockRelease l ++
    [.semaDown (.waiter t)] ++ lockAcquire l

/-- `cond_signal (cond, lock)` -/
def condSignal (c l : ℕ) : List Op := [.assertHeld l, .signalTest c]

/-- What a call by a thread does. -/
def Call.ops (lockOf : ℕ → ℕ) (t : ℕ) : Call → List Op
  | .semaDown s => [.semaDown (.sema s)]
  | .semaTryDown s => [.semaTryDown s]
  | .semaUp s => [.semaUp (.sema s)]
  | .lockAcquire l => Threads.lockAcquire l
  | .lockTryAcquire l => Threads.lockTryAcquire l
  | .lockRelease l => Threads.lockRelease l
  | .condWait c => Threads.condWait t c (lockOf c)
  | .condSignal c => Threads.condSignal c (lockOf c)
  | .condBroadcast c => [.signalAll c]

/-- What happens in a step. -/
inductive Event
  /-- a call begins -/
  | call (f : Call)
  /-- a call returns -/
  | returned (f : Call)
  /-- the value of a semaphore goes down -/
  | downed (r : SemaRef)
  /-- the value of a semaphore goes up -/
  | upped (r : SemaRef)
  /-- the thread is put on the list of a condition -/
  | queued (c : ℕ)
  /-- a thread is taken off the list of a condition, or there is none -/
  | signalled (c : ℕ) (w : Option ℕ)
  | silent
deriving DecidableEq

/-- The semaphores, the holders of the locks, the threads on the list of each condition, the threads
whose status is `THREAD_BLOCKED`, and for each thread the call it is in and what is left of it. -/
structure State where
  semas : SemaRef → Semaphore
  holder : ℕ → Option ℕ
  conds : ℕ → List ℕ
  blocked : ℕ → Bool
  call : ℕ → Option Call
  todo : ℕ → List Op

/-- The state with one semaphore changed. -/
def State.setSema (s : State) (r : SemaRef) (sema : Semaphore) : State :=
  { s with semas := Function.update s.semas r sema }

/-- The state with the holder of one lock changed. -/
def State.setHolder (s : State) (l : ℕ) (h : Option ℕ) : State :=
  { s with holder := Function.update s.holder l h }

/-- The state with the list of one condition changed. -/
def State.setConds (s : State) (c : ℕ) (waiters : List ℕ) : State :=
  { s with conds := Function.update s.conds c waiters }

/-- The state with the status of one thread changed. -/
def State.setBlocked (s : State) (t : ℕ) (b : Bool) : State :=
  { s with blocked := Function.update s.blocked t b }

@[simp] theorem State.setSema_self (s : State) (r : SemaRef) (sema : Semaphore) :
    (s.setSema r sema).semas r = sema := Function.update_self ..

theorem State.setSema_of_ne (s : State) {r r' : SemaRef} (h : r' ≠ r) (sema : Semaphore) :
    (s.setSema r sema).semas r' = s.semas r' := Function.update_of_ne h ..

@[simp] theorem State.setHolder_self (s : State) (l : ℕ) (h : Option ℕ) :
    (s.setHolder l h).holder l = h := Function.update_self ..

@[simp] theorem State.setConds_self (s : State) (c : ℕ) (waiters : List ℕ) :
    (s.setConds c waiters).conds c = waiters := Function.update_self ..

/-- `sema->value--` -/
def State.take (s : State) (r : SemaRef) : State :=
  s.setSema r { s.semas r with value := (s.semas r).value - 1 }

/-- A round of the loop of `sema_down`: the state, what comes next and what happened. -/
def semaDown (s : State) (t : ℕ) (r : SemaRef) : State × List Op × Event :=
  if (s.semas r).value = 0 then
    ((s.setSema r { s.semas r with waiters := (s.semas r).waiters ++ [t] }).setBlocked t true,
      [.semaRetest r], .silent)
  else (s.take r, [], .downed r)

/-- `sema_up (r)` -/
def semaUp (s : State) (r : SemaRef) : Option State :=
  let value := ((s.semas r).value + 1) % unsignedSize
  match (s.semas r).waiters with
  | [] => some (s.setSema r ⟨value, []⟩)
  | w :: waiters =>
    -- `thread_unblock` asserts that the thread is blocked
    if s.blocked w then some ((s.setSema r ⟨value, waiters⟩).setBlocked w false) else none

/-- What an operation of a thread does: the state, what comes next and what happened. -/
def exec (lockOf : ℕ → ℕ) (s : State) (t : ℕ) : Op → Option (State × List Op × Event)
  | .semaInit r value => some (s.setSema r ⟨value, []⟩, [], .silent)
  | .semaDown r => some (semaDown s t r)
  | .semaRetest r => some (semaDown s t r)
  | .semaTryDown x =>
    if 0 < (s.semas (.sema x)).value then some (s.take (.sema x), [], .downed (.sema x))
    else some (s, [], .silent)
  | .semaUp r => (semaUp s r).map (·, [], .upped r)
  | .lockTryDown l =>
    if 0 < (s.semas (.lock l)).value then
      some (s.take (.lock l), [.setHolder l], .downed (.lock l))
    else some (s, [], .silent)
  | .setHolder l => some (s.setHolder l (some t), [], .silent)
  | .clearHolder l => some (s.setHolder l none, [], .silent)
  | .assertHeld l => if s.holder l = some t then some (s, [], .silent) else none
  | .assertNotHeld l => if s.holder l ≠ some t then some (s, [], .silent) else none
  | .pushWaiter c =>
    some (s.setConds c (s.conds c ++ [t]), [], .queued c)
  | .signalTest c =>
    if s.conds c = [] then some (s, [], .signalled c none) else some (s, [.signalPop c], .silent)
  | .signalPop c =>
    match s.conds c with
    | [] => none
    | w :: rest =>
      some (s.setConds c rest, [.semaUp (.waiter w)], .signalled c (some w))
  | .signalAll c =>
    if s.conds c = [] then some (s, [], .silent)
    else some (s, condSignal c (lockOf c) ++ [.signalAll c], .silent)

/-- Everything that an operation of a thread can do. -/
inductive Executes (lockOf : ℕ → ℕ) (s : State) (t : ℕ) : Op → State → List Op → Event → Prop
  | semaInit (r : SemaRef) (value : ℕ) :
      Executes lockOf s t (.semaInit r value) (s.setSema r ⟨value, []⟩) [] .silent
  | sleep {op : Op} {r : SemaRef} (hop : op = .semaDown r ∨ op = .semaRetest r)
      (hzero : (s.semas r).value = 0) :
      Executes lockOf s t op
        ((s.setSema r ⟨(s.semas r).value, (s.semas r).waiters ++ [t]⟩).setBlocked t true)
        [.semaRetest r] .silent
  | take {op : Op} {r : SemaRef}
      (hop : op = .semaDown r ∨ op = .semaRetest r ∨ ∃ x, op = .semaTryDown x ∧ r = .sema x)
      (hpos : 0 < (s.semas r).value) : Executes lockOf s t op (s.take r) [] (.downed r)
  | lockTryDown {l : ℕ} (hpos : 0 < (s.semas (.lock l)).value) :
      Executes lockOf s t (.lockTryDown l) (s.take (.lock l)) [.setHolder l] (.downed (.lock l))
  | semaTryDown (x : ℕ) : Executes lockOf s t (.semaTryDown x) s [] .silent
  | lockFail (l : ℕ) : Executes lockOf s t (.lockTryDown l) s [] .silent
  | raise {r : SemaRef} (hempty : (s.semas r).waiters = []) :
      Executes lockOf s t (.semaUp r)
        (s.setSema r ⟨((s.semas r).value + 1) % unsignedSize, []⟩) [] (.upped r)
  | wake {r : SemaRef} {w : ℕ} {waiters : List ℕ} (hfirst : (s.semas r).waiters = w :: waiters)
      (hblocked : s.blocked w = true) :
      Executes lockOf s t (.semaUp r)
        ((s.setSema r ⟨((s.semas r).value + 1) % unsignedSize, waiters⟩).setBlocked w false) []
        (.upped r)
  | setHolder (l : ℕ) :
      Executes lockOf s t (.setHolder l) (s.setHolder l (some t)) [] .silent
  | clearHolder (l : ℕ) :
      Executes lockOf s t (.clearHolder l) (s.setHolder l none) [] .silent
  | assertHeld {l : ℕ} (hholder : s.holder l = some t) :
      Executes lockOf s t (.assertHeld l) s [] .silent
  | assertNotHeld {l : ℕ} (hholder : s.holder l ≠ some t) :
      Executes lockOf s t (.assertNotHeld l) s [] .silent
  | pushWaiter (c : ℕ) :
      Executes lockOf s t (.pushWaiter c) (s.setConds c (s.conds c ++ [t])) [] (.queued c)
  | signalNone {c : ℕ} (hempty : s.conds c = []) :
      Executes lockOf s t (.signalTest c) s [] (.signalled c none)
  | signalSome {c : ℕ} (hne : s.conds c ≠ []) :
      Executes lockOf s t (.signalTest c) s [.signalPop c] .silent
  | signalPop {c w : ℕ} {rest : List ℕ} (hfirst : s.conds c = w :: rest) :
      Executes lockOf s t (.signalPop c) (s.setConds c rest) [.semaUp (.waiter w)]
        (.signalled c (some w))
  | broadcastEnd {c : ℕ} (hempty : s.conds c = []) :
      Executes lockOf s t (.signalAll c) s [] .silent
  | broadcastNext {c : ℕ} (hne : s.conds c ≠ []) :
      Executes lockOf s t (.signalAll c) s (condSignal c (lockOf c) ++ [.signalAll c]) .silent

variable {lockOf : ℕ → ℕ} {s s' : State} {t : ℕ} {r : SemaRef} {op : Op} {more : List Op} {e : Event}

theorem semaDown_executes (hop : op = .semaDown r ∨ op = .semaRetest r)
    (h : semaDown s t r = (s', more, e)) : Executes lockOf s t op s' more e := by
  unfold semaDown at h
  split at h
  · rename_i hzero
    cases h
    exact .sleep hop hzero
  · rename_i hpos
    cases h
    exact .take (hop.imp_right Or.inl) (Nat.pos_of_ne_zero hpos)

theorem semaUp_executes (h : semaUp s r = some s') :
    Executes lockOf s t (.semaUp r) s' [] (.upped r) := by
  simp only [semaUp] at h
  split at h
  · rename_i hempty
    exact Option.some.inj h ▸ .raise hempty
  · rename_i w waiters hfirst
    split at h
    · exact Option.some.inj h ▸ .wake hfirst ‹_›
    · exact absurd h (Option.some_ne_none _).symm

/-- An operation does nothing else. -/
theorem exec_executes (h : exec lockOf s t op = some (s', more, e)) :
    Executes lockOf s t op s' more e := by
  cases op with
  | semaInit r value =>
    cases Option.some.inj h
    exact .semaInit r value
  | semaDown r => exact semaDown_executes (Or.inl rfl) (Option.some.inj h)
  | semaRetest r => exact semaDown_executes (Or.inr rfl) (Option.some.inj h)
  | semaTryDown x =>
    simp only [exec] at h
    split at h
    · cases h
      exact .take (Or.inr (Or.inr ⟨x, rfl, rfl⟩)) ‹_›
    · cases h
      exact .semaTryDown x
  | semaUp r =>
    obtain ⟨s₁, hup, hresult⟩ := Option.map_eq_some_iff.mp h
    cases hresult
    exact semaUp_executes hup
  | lockTryDown l =>
    simp only [exec] at h
    split at h
    · cases h
      exact .lockTryDown ‹_›
    · cases h
      exact .lockFail l
  | setHolder l =>
    cases Option.some.inj h
    exact .setHolder l
  | clearHolder l =>
    cases Option.some.inj h
    exact .clearHolder l
  | assertHeld l =>
    simp only [exec] at h
    split at h
    · cases h
      exact .assertHeld ‹_›
    · exact absurd h (Option.some_ne_none _).symm
  | assertNotHeld l =>
    simp only [exec] at h
    split at h
    · cases h
      exact .assertNotHeld ‹_›
    · exact absurd h (Option.some_ne_none _).symm
  | pushWaiter c =>
    cases Option.some.inj h
    exact .pushWaiter c
  | signalTest c =>
    simp only [exec] at h
    split at h
    · cases h
      exact .signalNone ‹_›
    · cases h
      exact .signalSome ‹_›
  | signalPop c =>
    simp only [exec] at h
    split at h
    · exact absurd h (Option.some_ne_none _).symm
    · cases h
      exact .signalPop ‹_›
  | signalAll c =>
    simp only [exec] at h
    split at h
    · cases h
      exact .broadcastEnd ‹_›
    · cases h
      exact .broadcastNext ‹_›

/-- The state with the operations left to a thread changed. -/
def State.setTodo (s : State) (t : ℕ) (ops : List Op) : State :=
  { s with todo := Function.update s.todo t ops }

/-- The state with the call a thread is in changed. -/
def State.setCall (s : State) (t : ℕ) (f : Option Call) : State :=
  { s with call := Function.update s.call t f }

@[simp] theorem State.setTodo_self (s : State) (t : ℕ) (ops : List Op) :
    (s.setTodo t ops).todo t = ops := Function.update_self ..

theorem State.setTodo_of_ne (s : State) {t u : ℕ} (h : u ≠ t) (ops : List Op) :
    (s.setTodo t ops).todo u = s.todo u := Function.update_of_ne h ..

@[simp] theorem State.setCall_self (s : State) (t : ℕ) (f : Option Call) :
    (s.setCall t f).call t = f := Function.update_self ..

theorem State.setCall_of_ne (s : State) {t u : ℕ} (h : u ≠ t) (f : Option Call) :
    (s.setCall t f).call u = s.call u := Function.update_of_ne h ..

/-- The functions on conditions are called with the lock held. -/
def Call.Allowed (lockOf : ℕ → ℕ) (s : State) (t : ℕ) : Call → Prop
  | .condWait c => s.holder (lockOf c) = some t
  | .condSignal c => s.holder (lockOf c) = some t
  | .condBroadcast c => s.holder (lockOf c) = some t
  | _ => True

/-- A step of a thread that is not blocked: it calls a function, goes on in one or returns from it. -/
inductive Step (lockOf : ℕ → ℕ) : State → ℕ × Event → State → Prop
  | call {s : State} {t : ℕ} {f : Call} (hidle : s.call t = none) (hready : s.blocked t = false)
      (hallowed : f.Allowed lockOf s t) :
      Step lockOf s (t, .call f) ((s.setTodo t (f.ops lockOf t)).setCall t (some f))
  | exec {s s' : State} {t : ℕ} {op : Op} {rest more : List Op} {e : Event}
      (htodo : s.todo t = op :: rest) (hready : s.blocked t = false)
      (hexec : exec lockOf s t op = some (s', more, e)) :
      Step lockOf s (t, e) (s'.setTodo t (more ++ rest))
  | returned {s : State} {t : ℕ} {f : Call} (hcall : s.call t = some f) (htodo : s.todo t = [])
      (hready : s.blocked t = false) : Step lockOf s (t, .returned f) (s.setCall t none)

/-- No thread has called anything yet, every lock is free, and the semaphores have the given values. -/
def initial (value : ℕ → ℕ) : State where
  semas
    | .sema x => ⟨value x, []⟩
    | .lock _ => ⟨1, []⟩
    | .waiter _ => ⟨0, []⟩
  holder _ := none
  conds _ := []
  blocked _ := false
  call _ := none
  todo _ := []

end Jungle.Threads
