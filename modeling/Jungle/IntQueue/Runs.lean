import Jungle.IntQueue.Basic

/-!
# Runs of an interrupt queue

Threads call `intq_getc`, block and are resumed in any order, and an interrupt handler puts bytes while
the queue is not full. A thread that has slept in `lock_acquire` does not look again whether the queue
is empty when it has the lock, and the assertion of `wait` fails when it is not (`not_resumes`). In a
run in which the queue is empty whenever such a thread gets the lock no assertion fails, and the bytes
returned are the first ones put, in order (`guarded_run_sound`).
-/

set_option autoImplicit false
set_option relaxedAutoImplicit false

namespace Jungle.IntQueue

open Jungle.Lib Jungle.Threads

/-- What happens between two points where a thread blocks. -/
inductive Act
  /-- a thread calls `intq_getc` -/
  | getc (t : ℕ)
  /-- a thread that has blocked in `intq_getc` goes on -/
  | resume (t : ℕ)
  /-- an interrupt handler calls `intq_putc` -/
  | putc (byte : UInt8)
deriving DecidableEq

/-- The state after an action. -/
def Act.exec (s : State) : Act → Option State
  | .getc t => intqGetc s t
  | .resume t =>
    match s.point t with
    | .outside => some s
    | .locking => lockWait s t
    | .waiting => do
      let s ← lockRelease s t
      intqGetc s t
  | .putc byte => intqPutc s byte

/-- What can happen. -/
def Act.Enabled (s : State) : Act → Prop
  | .getc t => s.point t = .outside
  | .resume t => s.point t ≠ .outside ∧ s.blocked t = false
  | .putc _ => intqFull s.q = false

/-- When a thread that has slept in `lock_acquire` gets the lock, the queue is empty. -/
def Act.Guard (s : State) : Act → Prop
  | .resume t => s.point t = .locking → s.q.lock.semaphore.value ≠ 0 → intqEmpty s.q = true
  | _ => True

def Step (s : State) (act : Act) (s' : State) : Prop := act.Enabled s ∧ act.exec s = some s'

def GuardedStep (s : State) (act : Act) (s' : State) : Prop := act.Guard s ∧ Step s act s'

/-- The queue has just been initialised. -/
def start (buf : ℕ → UInt8) : State where
  q := intqInit buf
  blocked _ := false
  point _ := .outside
  put := []
  got := []

/-- The bytes in the queue. -/
def Intq.contents (q : Intq) : List UInt8 := RingBuffer.contents intqBufsize q.buf q.head q.tail

/-- The lock, the thread that waits and the threads that sleep in `lock_acquire` fit the points at which
the threads are, but for the active thread, which is at none of them. -/
structure Invariant (s : State) (active : Option ℕ) : Prop where
  value : s.q.lock.semaphore.value = if s.q.lock.holder = none then 1 else 0
  holder : ∀ t, s.q.lock.holder = some t ↔ active ≠ some t ∧ s.point t = .waiting
  waiter : ∀ t, s.q.notEmpty = some t ↔
    active ≠ some t ∧ s.point t = .waiting ∧ s.blocked t = true
  waiters : ∀ t, t ∈ s.q.lock.semaphore.waiters ↔
    active ≠ some t ∧ s.point t = .locking ∧ s.blocked t = true
  nodup : s.q.lock.semaphore.waiters.Nodup
  notFull : s.q.notFull = none
  head : s.q.head < intqBufsize
  tail : s.q.tail < intqBufsize
  bytes : s.got ++ s.q.contents = s.put

variable {s s' : State} {t : ℕ} {act : Act} {buf : ℕ → UInt8}

theorem assert_true : assert true = some () := rfl

theorem assert_false : assert false = none := rfl

theorem invariant_start (buf : ℕ → UInt8) : Invariant (start buf) none where
  value := rfl
  holder _ := ⟨nofun, nofun⟩
  waiter _ := ⟨nofun, nofun⟩
  waiters _ := ⟨nofun, nofun⟩
  nodup := List.nodup_nil
  notFull := rfl
  head := Nat.zero_lt_succ _
  tail := Nat.zero_lt_succ _
  bytes := RingBuffer.contents_self ..

/-- A thread that is neither waiting nor asleep becomes active. -/
theorem Invariant.activate (h : Invariant s none) (hwaiting : s.point t ≠ .waiting)
    (hlocking : s.point t = .locking → s.blocked t = false) : Invariant s (some t) where
  value := h.value
  holder u := by
    rw [h.holder]
    exact ⟨fun ⟨_, hu⟩ ↦ ⟨fun heq ↦ hwaiting (Option.some.inj heq ▸ hu), hu⟩, fun hu ↦ ⟨nofun, hu.2⟩⟩
  waiter u := by
    rw [h.waiter]
    exact ⟨fun ⟨_, hu⟩ ↦ ⟨fun heq ↦ hwaiting (Option.some.inj heq ▸ hu.1), hu⟩,
      fun hu ↦ ⟨nofun, hu.2⟩⟩
  waiters u := by
    rw [h.waiters]
    refine ⟨fun ⟨_, hu⟩ ↦ ⟨fun heq ↦ ?_, hu⟩, fun hu ↦ ⟨nofun, hu.2⟩⟩
    obtain rfl := Option.some.inj heq
    exact absurd (hu.2.symm.trans (hlocking hu.1)) (by decide)
  nodup := h.nodup
  notFull := h.notFull
  head := h.head
  tail := h.tail
  bytes := h.bytes

theorem threadBlock_of_ne {u : ℕ} (h : u ≠ t) (point : Point) :
    (threadBlock s t point).point u = s.point u ∧
      (threadBlock s t point).blocked u = s.blocked u :=
  ⟨Function.update_of_ne h .., Function.update_of_ne h ..⟩

theorem threadBlock_self (s : State) (t : ℕ) (point : Point) :
    (threadBlock s t point).point t = point ∧ (threadBlock s t point).blocked t = true :=
  ⟨Function.update_self .., Function.update_self ..⟩

/-- What is known of a thread that is not active does not depend on which one is. -/
theorem inactive_iff {u : ℕ} (hu : u ≠ t) (p : Prop) :
    (some t ≠ some u ∧ p) ↔ ((none : Option ℕ) ≠ some u ∧ p) :=
  ⟨fun hp ↦ ⟨nofun, hp.2⟩, fun hp ↦ ⟨fun heq ↦ hu (Option.some.inj heq).symm, hp.2⟩⟩

/-- The active thread blocks in `lock_acquire`. -/
theorem Invariant.sleep (h : Invariant s (some t)) :
    Invariant (threadBlock { s with q := { s.q with lock.semaphore :=
      { s.q.lock.semaphore with waiters := s.q.lock.semaphore.waiters ++ [t] } } } t .locking)
      none := by
  have hlock : s.q.lock.holder ≠ some t := fun heq ↦ ((h.holder t).mp heq).1 rfl
  have hwaiter : s.q.notEmpty ≠ some t := fun heq ↦ ((h.waiter t).mp heq).1 rfl
  have hnew : t ∉ s.q.lock.semaphore.waiters := fun hmem ↦ ((h.waiters t).mp hmem).1 rfl
  refine ⟨h.value, fun u ↦ ?_, fun u ↦ ?_, fun u ↦ ?_, ?_, h.notFull, h.head, h.tail, h.bytes⟩
  · by_cases hu : u = t
    · subst hu
      rw [(threadBlock_self ..).1]
      exact ⟨fun heq ↦ absurd heq hlock, fun hpoint ↦ absurd hpoint.2 (by decide)⟩
    · rw [(threadBlock_of_ne hu _).1]
      exact (h.holder u).trans (inactive_iff hu _)
  · by_cases hu : u = t
    · subst hu
      rw [(threadBlock_self ..).1]
      exact ⟨fun heq ↦ absurd heq hwaiter, fun hpoint ↦ absurd hpoint.2.1 (by decide)⟩
    · rw [(threadBlock_of_ne hu _).1, (threadBlock_of_ne hu _).2]
      exact (h.waiter u).trans (inactive_iff hu _)
  · by_cases hu : u = t
    · subst hu
      rw [(threadBlock_self ..).1, (threadBlock_self ..).2]
      exact ⟨fun _ ↦ ⟨nofun, rfl, rfl⟩, fun _ ↦ List.mem_append_right _ List.mem_cons_self⟩
    · rw [(threadBlock_of_ne hu _).1, (threadBlock_of_ne hu _).2]
      have hold : u ∈ s.q.lock.semaphore.waiters ++ [t] ↔ u ∈ s.q.lock.semaphore.waiters := by
        rw [List.mem_append, List.mem_singleton, or_iff_left hu]
      exact hold.trans ((h.waiters u).trans (inactive_iff hu _))
  · refine List.nodup_append.mpr ⟨h.nodup, List.pairwise_singleton _ t, fun a ha b hb hab ↦ ?_⟩
    exact hnew (List.mem_singleton.mp hb ▸ hab ▸ ha)

/-- The active thread has the lock and waits for a byte. -/
theorem Invariant.await (h : Invariant s (some t)) (hfree : s.q.lock.semaphore.value ≠ 0) :
    Invariant (threadBlock { s with q := { s.q with
      lock := ⟨some t, { s.q.lock.semaphore with value := s.q.lock.semaphore.value - 1 }⟩
      notEmpty := some t } } t .waiting) none := by
  have hnone : s.q.lock.holder = none := by
    by_contra hheld
    exact hfree (h.value.trans (if_neg hheld))
  have hone : s.q.lock.semaphore.value = 1 := h.value.trans (if_pos hnone)
  have hothers : ∀ u, u ≠ t → s.point u ≠ .waiting := by
    intro u hu hpoint
    have hheld := (h.holder u).mpr ⟨fun heq ↦ hu (Option.some.inj heq).symm, hpoint⟩
    exact absurd (hnone.symm.trans hheld) nofun
  have hnew : t ∉ s.q.lock.semaphore.waiters := fun hmem ↦ ((h.waiters t).mp hmem).1 rfl
  refine ⟨?_, fun u ↦ ?_, fun u ↦ ?_, fun u ↦ ?_, h.nodup, h.notFull, h.head, h.tail, h.bytes⟩
  · exact congrArg (· - 1) hone
  · by_cases hu : u = t
    · subst hu
      rw [(threadBlock_self ..).1]
      exact ⟨fun _ ↦ ⟨nofun, rfl⟩, fun _ ↦ rfl⟩
    · rw [(threadBlock_of_ne hu _).1]
      exact ⟨fun heq ↦ absurd (Option.some.inj heq).symm hu, fun hpoint ↦
        absurd hpoint.2 (hothers u hu)⟩
  · by_cases hu : u = t
    · subst hu
      rw [(threadBlock_self ..).1, (threadBlock_self ..).2]
      exact ⟨fun _ ↦ ⟨nofun, rfl, rfl⟩, fun _ ↦ rfl⟩
    · rw [(threadBlock_of_ne hu _).1]
      exact ⟨fun heq ↦ absurd (Option.some.inj heq).symm hu, fun hpoint ↦
        absurd hpoint.2.1 (hothers u hu)⟩
  · by_cases hu : u = t
    · subst hu
      rw [(threadBlock_self ..).1]
      exact ⟨fun hmem ↦ absurd hmem hnew, fun hpoint ↦ absurd hpoint.2.1 (by decide)⟩
    · rw [(threadBlock_of_ne hu _).1, (threadBlock_of_ne hu _).2]
      exact (h.waiters u).trans (inactive_iff hu _)

/-- The active thread tries to get the lock: it sleeps, or it waits for a byte if there is none. -/
theorem Invariant.lockWait (h : Invariant s (some t))
    (hguard : s.q.lock.semaphore.value ≠ 0 → intqEmpty s.q = true) : ∃ s',
      lockWait s t = some s' ∧ Invariant s' none := by
  by_cases hfree : s.q.lock.semaphore.value = 0
  · exact ⟨_, if_pos hfree, h.sleep⟩
  · refine ⟨_, ?_, h.await hfree⟩
    have hempty : intqEmpty s.q = true := hguard hfree
    have hholds : holds { s.q with lock := ⟨some t,
        { s.q.lock.semaphore with value := s.q.lock.semaphore.value - 1 }⟩ } .notEmpty = false := by
      rw [intqEmpty] at hempty
      simp [holds, intqEmpty, hempty]
    simp [IntQueue.lockWait, if_neg hfree, wait, hholds, assert_true, Intq.setWaiter]

/-- A thread that gets the lock while there are bytes fails. -/
theorem lockWait_fails (hfree : s.q.lock.semaphore.value ≠ 0) (hbytes : intqEmpty s.q = false) :
    lockWait s t = none := by
  have hholds : holds { s.q with lock := ⟨some t,
      { s.q.lock.semaphore with value := s.q.lock.semaphore.value - 1 }⟩ } .notEmpty = true := by
    simpa [holds, intqEmpty] using hbytes
  simp [lockWait, if_neg hfree, wait, hholds, assert_false]

theorem signal_none {waiter : Waiter} (hholds : holds s.q waiter = true)
    (hwaiter : s.q.waiter waiter = none) : signal s waiter = some s := by
  simp [signal, hholds, assert_true, hwaiter]

theorem signal_some {waiter : Waiter} (hholds : holds s.q waiter = true)
    (hwaiter : s.q.waiter waiter = some t) (hblocked : s.blocked t = true) :
    signal s waiter = some { s with
      q := s.q.setWaiter waiter none
      blocked := Function.update s.blocked t false } := by
  simp [signal, hholds, assert_true, hwaiter, threadUnblock, hblocked]

/-- The active thread takes a byte and returns. -/
theorem Invariant.take (h : Invariant s (some t)) (hbytes : s.q.head ≠ s.q.tail) :
    Invariant { s with
      q := { s.q with tail := next s.q.tail }
      point := Function.update s.point t .outside
      got := s.got ++ [s.q.buf s.q.tail] } none := by
  have hlock : s.q.lock.holder ≠ some t := fun heq ↦ ((h.holder t).mp heq).1 rfl
  have hwaiter : s.q.notEmpty ≠ some t := fun heq ↦ ((h.waiter t).mp heq).1 rfl
  have hasleep : t ∉ s.q.lock.semaphore.waiters := fun hmem ↦ ((h.waiters t).mp hmem).1 rfl
  have hself : Function.update s.point t .outside t = .outside := Function.update_self ..
  refine ⟨h.value, fun u ↦ ?_, fun u ↦ ?_, fun u ↦ ?_, h.nodup, h.notFull, h.head,
    RingBuffer.advance_lt h.tail, ?_⟩
  · by_cases hu : u = t
    · subst hu
      exact ⟨fun heq ↦ absurd heq hlock, fun hpoint ↦ absurd (hself.symm.trans hpoint.2) (by decide)⟩
    · have hpoint : Function.update s.point t .outside u = s.point u := Function.update_of_ne hu ..
      simp only [hpoint]
      exact (h.holder u).trans (inactive_iff hu _)
  · by_cases hu : u = t
    · subst hu
      exact ⟨fun heq ↦ absurd heq hwaiter,
        fun hpoint ↦ absurd (hself.symm.trans hpoint.2.1) (by decide)⟩
    · have hpoint : Function.update s.point t .outside u = s.point u := Function.update_of_ne hu ..
      simp only [hpoint]
      exact (h.waiter u).trans (inactive_iff hu _)
  · by_cases hu : u = t
    · subst hu
      exact ⟨fun hmem ↦ absurd hmem hasleep,
        fun hpoint ↦ absurd (hself.symm.trans hpoint.2.1) (by decide)⟩
    · have hpoint : Function.update s.point t .outside u = s.point u := Function.update_of_ne hu ..
      simp only [hpoint]
      exact (h.waiters u).trans (inactive_iff hu _)
  · have hbytes' := h.bytes
    rw [Intq.contents, RingBuffer.contents_read h.head h.tail hbytes, List.append_cons] at hbytes'
    exact hbytes'

/-- The test of the loop of `intq_getc` and what comes then. -/
theorem Invariant.intqGetc (h : Invariant s (some t)) : ∃ s',
    intqGetc s t = some s' ∧ Invariant s' none := by
  have hlock : s.q.lock.holder ≠ some t := fun heq ↦ ((h.holder t).mp heq).1 rfl
  cases hempty : intqEmpty s.q with
  | true =>
    obtain ⟨s', hcall, hinv⟩ := h.lockWait fun _ ↦ hempty
    refine ⟨s', ?_, hinv⟩
    simp [IntQueue.intqGetc, hempty, hlock, assert_true, hcall]
  | false =>
    have hbytes : s.q.head ≠ s.q.tail := of_decide_eq_false hempty
    have hholds : holds { s.q with tail := next s.q.tail } .notFull = true := by
      have hne : next s.q.head ≠ next s.q.tail := by
        rw [next, next, RingBuffer.advance_eq h.head, RingBuffer.advance_eq h.tail]
        split_ifs <;> omega
      simpa [holds, intqFull] using hne
    have hsignal : signal { s with q := { s.q with tail := next s.q.tail } } .notFull = _ :=
      signal_none hholds h.notFull
    refine ⟨_, ?_, h.take hbytes⟩
    simp [IntQueue.intqGetc, hempty, hsignal]

/-- A thread that has been woken releases the lock. -/
theorem Invariant.lockRelease (h : Invariant s none) (hpoint : s.point t = .waiting)
    (hawake : s.blocked t = false) : ∃ s',
      lockRelease s t = some s' ∧ Invariant s' (some t) := by
  have hheld : s.q.lock.holder = some t := (h.holder t).mpr ⟨nofun, hpoint⟩
  have hzero : s.q.lock.semaphore.value = 0 := by
    rw [h.value, hheld]
    rfl
  have hothers : ∀ u, u ≠ t → s.point u ≠ .waiting := by
    intro u hu hwaiting
    have heq := hheld.symm.trans ((h.holder u).mpr ⟨nofun, hwaiting⟩)
    exact hu (Option.some.inj heq).symm
  have hnobody : ∀ u, ¬(some t ≠ some u ∧ s.point u = .waiting) := by
    rintro u ⟨hne, hwaiting⟩
    exact hothers u (fun heq ↦ hne (heq ▸ rfl)) hwaiting
  have hwaiter : ∀ u, s.q.notEmpty ≠ some u := by
    intro u heq
    obtain ⟨-, hwaiting, hblocked⟩ := (h.waiter u).mp heq
    by_cases hu : u = t
    · subst hu
      exact absurd (hawake.symm.trans hblocked) (by decide)
    · exact hothers u hu hwaiting
  cases hwaiters : s.q.lock.semaphore.waiters with
  | nil =>
    have hnil : ∀ u, ¬(s.point u = .locking ∧ s.blocked u = true) := by
      intro u hu
      have hmem := (h.waiters u).mpr ⟨nofun, hu⟩
      rw [hwaiters] at hmem
      exact absurd hmem List.not_mem_nil
    refine ⟨{ s with q := { s.q with lock := ⟨none, ⟨1, []⟩⟩ } }, ?_, rfl, fun u ↦ ?_, fun u ↦ ?_,
      fun u ↦ ?_, List.nodup_nil, h.notFull, h.head, h.tail, h.bytes⟩
    · simp [IntQueue.lockRelease, hheld, assert_true, semaUp, hwaiters, hzero, unsignedSize]
    · exact ⟨nofun, fun hu ↦ absurd hu (hnobody u)⟩
    · exact ⟨fun heq ↦ absurd heq (hwaiter u), fun hu ↦ absurd ⟨hu.1, hu.2.1⟩ (hnobody u)⟩
    · exact ⟨fun hmem ↦ absurd hmem List.not_mem_nil, fun hu ↦ absurd hu.2 (hnil u)⟩
  | cons w rest =>
    have hw := (h.waiters w).mp (hwaiters ▸ List.mem_cons_self)
    have hnodup := h.nodup
    rw [hwaiters, List.nodup_cons] at hnodup
    have hwt : some t ≠ some w := by
      intro heq
      rw [← Option.some.inj heq, hpoint] at hw
      exact absurd hw.2.1 (by decide)
    have hself : Function.update s.blocked w false w = false := Function.update_self ..
    have hother : ∀ u, u ≠ w → Function.update s.blocked w false u = s.blocked u :=
      fun u hu ↦ Function.update_of_ne hu ..
    refine ⟨{ s with
      q := { s.q with lock := ⟨none, ⟨1, rest⟩⟩ }
      blocked := Function.update s.blocked w false }, ?_, rfl, fun u ↦ ?_, fun u ↦ ?_, fun u ↦ ?_,
      hnodup.2, h.notFull, h.head, h.tail, h.bytes⟩
    · simp [IntQueue.lockRelease, hheld, assert_true, semaUp, hwaiters, hzero, unsignedSize,
        threadUnblock, hw.2.2]
    · exact ⟨nofun, fun hu ↦ absurd hu (hnobody u)⟩
    · exact ⟨fun heq ↦ absurd heq (hwaiter u), fun hu ↦ absurd ⟨hu.1, hu.2.1⟩ (hnobody u)⟩
    · by_cases hu : u = w
      · subst hu
        exact ⟨fun hmem ↦ absurd hmem hnodup.1,
          fun hblocked ↦ absurd (hself.symm.trans hblocked.2.2) (by decide)⟩
      · have hold := h.waiters u
        rw [hwaiters, List.mem_cons, or_iff_right hu] at hold
        simp only [hother u hu]
        refine hold.trans ⟨fun hp ↦ ⟨fun heq ↦ ?_, hp.2⟩, fun hp ↦ ⟨nofun, hp.2⟩⟩
        rw [← Option.some.inj heq, hpoint] at hp
        exact absurd hp.2.1 (by decide)

/-- An interrupt handler puts a byte. -/
theorem Invariant.intqPutc (h : Invariant s none) (hspace : intqFull s.q = false) (byte : UInt8) :
    ∃ s', intqPutc s byte = some s' ∧ Invariant s' none := by
  have hfull : RingBuffer.advance intqBufsize s.q.head ≠ s.q.tail := of_decide_eq_false hspace
  have hbytes : s.got ++ RingBuffer.contents intqBufsize
      (Function.update s.q.buf s.q.head byte) (next s.q.head) s.q.tail = s.put ++ [byte] := by
    rw [next, RingBuffer.contents_write h.head h.tail hfull, ← List.append_assoc]
    exact congrArg (· ++ [byte]) h.bytes
  have hholds : holds { s.q with
      buf := Function.update s.q.buf s.q.head byte, head := next s.q.head } .notEmpty = true := by
    change (!decide (RingBuffer.advance intqBufsize s.q.head = s.q.tail)) = true
    rw [decide_eq_false hfull, Bool.not_false]
  have hhead : next s.q.head < intqBufsize := RingBuffer.advance_lt h.head
  cases hwaiter : s.q.notEmpty with
  | none =>
    refine ⟨{ s with
      q := { s.q with buf := Function.update s.q.buf s.q.head byte, head := next s.q.head }
      put := s.put ++ [byte] }, ?_, h.value, h.holder, h.waiter, h.waiters, h.nodup, h.notFull,
      hhead, h.tail, hbytes⟩
    simp only [IntQueue.intqPutc, hspace, Bool.not_false, assert_true, Option.bind_eq_bind,
      Option.bind_some]
    exact signal_none hholds hwaiter
  | some w =>
    obtain ⟨-, hpoint, hblocked⟩ := (h.waiter w).mp hwaiter
    have hself : Function.update s.blocked w false w = false := Function.update_self ..
    have hother : ∀ u, u ≠ w → Function.update s.blocked w false u = s.blocked u :=
      fun u hu ↦ Function.update_of_ne hu ..
    refine ⟨{ s with
      q := { s.q with
        buf := Function.update s.q.buf s.q.head byte
        head := next s.q.head
        notEmpty := none }
      blocked := Function.update s.blocked w false
      put := s.put ++ [byte] }, ?_, h.value, h.holder, fun u ↦ ⟨nofun, fun hu ↦ ?_⟩, fun u ↦ ?_,
      h.nodup, h.notFull, hhead, h.tail, hbytes⟩
    · simp only [IntQueue.intqPutc, hspace, Bool.not_false, assert_true, Option.bind_eq_bind,
        Option.bind_some]
      exact signal_some hholds hwaiter hblocked
    · by_cases huw : u = w
      · subst huw
        exact absurd (hself.symm.trans hu.2.2) (by decide)
      · simp only [hother u huw] at hu
        exact absurd (Option.some.inj (hwaiter.symm.trans ((h.waiter u).mpr hu))).symm huw
    · by_cases huw : u = w
      · subst huw
        refine ⟨fun hmem ↦ ?_, fun hu ↦ absurd (hself.symm.trans hu.2.2) (by decide)⟩
        exact absurd (hpoint.symm.trans ((h.waiters u).mp hmem).2.1) (by decide)
      · simp only [hother u huw]
        exact h.waiters u

/-! ### Runs -/

/-- An action that can happen goes without a failed assertion if and only if the guard holds. -/
theorem Invariant.exec (h : Invariant s none) (henabled : act.Enabled s) :
    ((act.exec s).isSome ↔ act.Guard s) ∧ ∀ s', act.exec s = some s' → Invariant s' none := by
  have hsettle : ∀ s₁, act.exec s = some s₁ → Invariant s₁ none → act.Guard s →
      ((act.exec s).isSome ↔ act.Guard s) ∧ ∀ s', act.exec s = some s' → Invariant s' none := by
    intro s₁ hcall hinv hguard
    rw [hcall]
    exact ⟨⟨fun _ ↦ hguard, fun _ ↦ rfl⟩, fun s' heq ↦ Option.some.inj heq ▸ hinv⟩
  cases act with
  | getc t =>
    have houtside : s.point t = .outside := henabled
    have hactive : Invariant s (some t) := h.activate (by rw [houtside]; decide)
      fun hlocking ↦ absurd (houtside.symm.trans hlocking) (by decide)
    obtain ⟨s₁, hcall, hinv⟩ := hactive.intqGetc
    exact hsettle s₁ hcall hinv trivial
  | resume t =>
    obtain ⟨hinside, hawake⟩ := henabled
    cases hpoint : s.point t with
    | outside => exact absurd hpoint hinside
    | locking =>
      have hactive : Invariant s (some t) := h.activate (by rw [hpoint]; decide) fun _ ↦ hawake
      have hexec : Act.exec s (.resume t) = IntQueue.lockWait s t := by
        simp only [Act.exec, hpoint]
      by_cases hguard : Act.Guard s (.resume t)
      · obtain ⟨s₁, hcall, hinv⟩ := hactive.lockWait (hguard hpoint)
        exact hsettle s₁ (hexec.trans hcall) hinv hguard
      · have hfails : Act.exec s (.resume t) = none := by
          simp only [Act.Guard, Classical.not_imp, Bool.not_eq_true] at hguard
          exact hexec.trans (lockWait_fails hguard.2.1 hguard.2.2)
        rw [hfails]
        exact ⟨⟨fun hsome ↦ absurd hsome (by decide), fun h ↦ absurd h hguard⟩, nofun⟩
    | waiting =>
      obtain ⟨s₁, hrelease, hactive⟩ := h.lockRelease hpoint hawake
      obtain ⟨s₂, hcall, hinv⟩ := hactive.intqGetc
      refine hsettle s₂ ?_ hinv fun hlocking ↦ absurd (hpoint.symm.trans hlocking) (by decide)
      simp [Act.exec, hpoint, hrelease, hcall]
  | putc byte =>
    obtain ⟨s₁, hcall, hinv⟩ := h.intqPutc henabled byte
    exact hsettle s₁ hcall hinv trivial

theorem invariant_step {s s' : State} {act : Act} (h : Invariant s none)
    (hstep : GuardedStep s act s') : Invariant s' none :=
  (h.exec hstep.2.1).2 s' hstep.2.2

/-- In a run in which the queue is empty whenever a thread that has slept in `lock_acquire` gets the
lock, the bytes returned are the first ones put, and no assertion of what can happen next fails unless
the guard does. -/
theorem guarded_run_sound {acts : List Act} (hrun : Run GuardedStep (start buf) acts s) :
    s.got <+: s.put ∧ ∀ act : Act, act.Enabled s → ((act.exec s).isSome ↔ act.Guard s) := by
  have hkeep : ∀ s act s', Invariant s none → GuardedStep s act s' → Invariant s' none :=
    fun _ _ _ ↦ invariant_step
  have h := Run.invariant hkeep hrun (invariant_start buf)
  exact ⟨⟨_, h.bytes⟩, fun act henabled ↦ (h.exec henabled).1⟩

/-- A run in which a reader waits for a byte, is woken and gets it. -/
theorem guarded_run_sound_getc : ∃ s,
    Run GuardedStep (start fun _ ↦ 0) [.getc 1, .putc 65, .resume 1] s ∧ s.got = [65] ∧
      s.got <+: s.put :=
  have hrun : Run GuardedStep (start fun _ ↦ 0) [.getc 1, .putc 65, .resume 1] _ :=
    .cons ⟨trivial, rfl, rfl⟩ (.cons ⟨trivial, rfl, rfl⟩
      (.cons ⟨nofun, ⟨nofun, rfl⟩, rfl⟩ (.nil _)))
  ⟨_, hrun, rfl, (guarded_run_sound hrun).1⟩

/-- The first reader waits for a byte and the second one for the lock. A byte wakes the first one, who
releases the lock and takes it. Another byte comes before the second one goes on: it gets the lock, and
the assertion of `wait` that the queue is empty fails. -/
theorem not_resumes : ∃ s,
    Run Step (start fun _ ↦ 0) [.getc 1, .getc 2, .putc 65, .resume 1, .putc 66] s ∧
      Act.Enabled s (.resume 2) ∧ Act.exec s (.resume 2) = none :=
  ⟨_, .cons ⟨rfl, rfl⟩ (.cons ⟨rfl, rfl⟩ (.cons ⟨rfl, rfl⟩ (.cons ⟨⟨nofun, rfl⟩, rfl⟩
    (.cons ⟨rfl, rfl⟩ (.nil _))))), ⟨nofun, rfl⟩, rfl⟩

end Jungle.IntQueue
