import Jungle.Scheduler.Queues

/-!
# Threads and lists in step

The status of every thread fits the lists it is in (`Books`), but for the threads that are on their
way from one status or list to another. Between two calls that is the running thread (`Consistent`);
when `schedule` is called it is none.
-/

set_option autoImplicit false
set_option relaxedAutoImplicit false

namespace Jungle.Scheduler

open Jungle.Lib Jungle.KernelList

/-- The threads put on the ready list, in order. -/
def entries (trace : List Event) : List ℕ :=
  trace.filterMap fun | .entered t => some t | _ => none

/-- The threads taken off the ready list, in order. -/
def departures (trace : List Event) : List ℕ :=
  trace.filterMap fun | .left t => some t | _ => none

/-- The threads put on the destruction list, in order. -/
def deaths (trace : List Event) : List ℕ :=
  trace.filterMap fun | .died t => some t | _ => none

/-- The threads whose page has been freed, in order. -/
def frees (trace : List Event) : List ℕ :=
  trace.filterMap fun | .freed t => some t | _ => none

section Traces

variable (trace trace' : List Event) (t : ℕ)

@[simp] theorem entries_append : entries (trace ++ trace') = entries trace ++ entries trace' :=
  List.filterMap_append ..

@[simp] theorem departures_append :
    departures (trace ++ trace') = departures trace ++ departures trace' :=
  List.filterMap_append ..

@[simp] theorem deaths_append : deaths (trace ++ trace') = deaths trace ++ deaths trace' :=
  List.filterMap_append ..

@[simp] theorem frees_append : frees (trace ++ trace') = frees trace ++ frees trace' :=
  List.filterMap_append ..

end Traces

/-- The threads and the lists fit each other, but for the pending threads. The page of a thread that
is to be destroyed has not been freed, and that of the initial thread never is. -/
structure Books (lists : ListName → KList) (pending : List ℕ) (s : Kernel)
    (Q : ListName → List ℕ) : Prop where
  queues : Queues lists s Q
  running : ∀ t ∉ pending, s.status t ≠ some .running
  ready : ∀ t ∉ pending, (t ∈ Q .ready ↔ s.status t = some .ready ∧ t ≠ s.idleThread)
  waiting : ∀ t ∉ pending, ∀ sema, t ∈ Q (.waiters sema) →
    s.status t = some .blocked ∧ t ≠ s.idleThread
  dying : ∀ t, t ∈ Q .destruction ↔
    s.status t = some .dying ∧ t ≠ s.initialThread ∧ t ≠ s.current
  idle : ∃ status, s.status s.idleThread = some status ∧ status ≠ .dying
  order : departures s.trace ++ Q .ready = entries s.trace
  reaped : frees s.trace ++ Q .destruction = deaths s.trace
  kept : s.initialThread ∉ deaths s.trace

/-- A status other than `THREAD_RUNNING` that fits the lists a thread is in. -/
structure Fits (s : Kernel) (Q : ListName → List ℕ) (t : ℕ) (status : Status) : Prop where
  running : status ≠ .running
  ready : t ∈ Q .ready ↔ status = .ready ∧ t ≠ s.idleThread
  waiting : ∀ sema, t ∈ Q (.waiters sema) → status = .blocked ∧ t ≠ s.idleThread
  idle : status = .dying → t ≠ s.idleThread

/-- Between two calls only the current thread is running, and it is in no list. -/
structure Consistent (lists : ListName → KList) (s : Kernel) (Q : ListName → List ℕ) : Prop
    extends Books lists [s.current] s Q where
  current : s.status s.current = some .running
  loose : ∀ list, s.current ∉ Q list

/-- The running thread gives way to the first one of the ready list, or to the idle thread, after the
pages of some threads have been freed. Only the thread that gave way is put on the destruction list. -/
structure Switched (s : Kernel) (ready victims : List ℕ) (s' : Kernel) : Prop where
  next : s'.current = ready.head?.getD s.idleThread
  idle : s'.current = s.idleThread ↔ ready = []
  idleThread : s'.idleThread = s.idleThread
  initialThread : s'.initialThread = s.initialThread
  trace : ∃ new, s'.trace = s.trace ++ new ∧ frees new = victims ∧
    ∀ t ∈ deaths new, t = s.current ∧ t ≠ s'.current ∧ s'.status t = some .dying

/-- What the loop of `do_schedule` does. -/
structure Reaps (s s' : Kernel) (victims : List ℕ) : Prop where
  current : s'.current = s.current
  idleThread : s'.idleThread = s.idleThread
  initialThread : s'.initialThread = s.initialThread
  status : ∀ t ∉ victims, s'.status t = s.status t
  trace : s'.trace = s.trace ++ victims.map .freed

variable {lists : ListName → KList} {s s' : Kernel} {Q : ListName → List ℕ} {t : ℕ}
  {pending : List ℕ} {B : List ℕ}

/-! ### Moving one thread -/

/-- More threads may be pending. -/
theorem Books.mono (h : Books lists pending s Q) {pending' : List ℕ} (hsub : pending ⊆ pending') :
    Books lists pending' s Q where
  queues := h.queues
  running t ht := h.running t fun hmem ↦ ht (hsub hmem)
  ready t ht := h.ready t fun hmem ↦ ht (hsub hmem)
  waiting t ht := h.waiting t fun hmem ↦ ht (hsub hmem)
  dying := h.dying
  idle := h.idle
  order := h.order
  reaped := h.reaped
  kept := h.kept

/-- A pending thread is put on the ready list or on the list of a semaphore. -/
theorem Books.push (h : Books lists (t :: pending) s Q) (ht : (s.status t).isSome)
    (hout : ∀ list, t ∉ Q list) (list : ListName) (hlist : list ≠ .destruction) (new : List Event)
    (hentries : entries new = if list = .ready then [t] else [])
    (hnew : departures new = [] ∧ deaths new = [] ∧ frees new = []) : ∃ m,
      pushBack lists s list t = some { s with elems := m } ∧
        Books lists (t :: pending) { s with elems := m, trace := s.trace ++ new }
          (Function.update Q list (Q list ++ [t])) := by
  obtain ⟨m, hpush, hqueues⟩ := h.queues.pushBack ht hout list
  obtain ⟨hdepartures, hdeaths, hfrees⟩ := hnew
  have hmem : ∀ u, u ∉ t :: pending → ∀ other,
      u ∈ Function.update Q list (Q list ++ [t]) other ↔ u ∈ Q other := by
    intro u hu other
    have hne : u ≠ t := fun heq ↦ hu (heq ▸ List.mem_cons_self)
    by_cases hother : other = list
    · subst hother
      rw [Function.update_self, List.mem_append, List.mem_singleton]
      exact or_iff_left hne
    · rw [Function.update_of_ne hother]
  refine ⟨m, hpush, hqueues.congr rfl fun _ ↦ rfl, h.running, fun u hu ↦ ?_, fun u hu sema hin ↦ ?_,
    ?_, h.idle, ?_, ?_, ?_⟩
  · rw [hmem u hu]
    exact h.ready u hu
  · exact h.waiting u hu sema ((hmem u hu _).mp hin)
  · rw [Function.update_of_ne hlist.symm]
    exact h.dying
  · rw [departures_append, entries_append, hdepartures, hentries, List.append_nil]
    by_cases hready : list = .ready
    · subst hready
      rw [Function.update_self, if_pos rfl, ← List.append_assoc, h.order]
    · rw [Function.update_of_ne (Ne.symm hready), if_neg hready, List.append_nil, h.order]
  · rw [frees_append, deaths_append, hfrees, hdeaths, List.append_nil, List.append_nil,
      Function.update_of_ne hlist.symm, h.reaped]
  · rw [deaths_append, hdeaths, List.append_nil]
    exact h.kept

/-- A pending thread gets a status that fits the list it is in. -/
theorem Books.settle (h : Books lists (t :: pending) s Q) (ht : (s.status t).isSome)
    {status : Status} (hfits : Fits s Q t status)
    (hdying : t ∈ Q .destruction ↔ status = .dying ∧ t ≠ s.initialThread ∧ t ≠ s.current) :
    Books lists pending (s.setStatus t status) Q := by
  have hself : (s.setStatus t status).status t = some status := Function.update_self ..
  have hother : ∀ u, u ≠ t → (s.setStatus t status).status u = s.status u :=
    fun u hu ↦ Function.update_of_ne hu ..
  have hpending : ∀ u, u ∉ pending → u ≠ t → u ∉ t :: pending := fun u hu hne hmem ↦
    (List.mem_cons.mp hmem).elim hne hu
  have hinj : ∀ {other : Status}, some status = some other ↔ status = other := Option.some_inj
  refine ⟨h.queues.congr rfl fun u ↦ ?_, fun u hu ↦ ?_, fun u hu ↦ ?_, fun u hu sema hmem ↦ ?_,
    fun u ↦ ?_, ?_, h.order, h.reaped, h.kept⟩
  · by_cases hne : u = t
    · rw [hne, hself, ht, Option.isSome_some]
    · rw [hother u hne]
  · by_cases hne : u = t
    · rw [hne, hself]
      exact fun heq ↦ hfits.running (Option.some.inj heq)
    · rw [hother u hne]
      exact h.running u (hpending u hu hne)
  · by_cases hne : u = t
    · rw [hne, hself, hinj]
      exact hfits.ready
    · rw [hother u hne]
      exact h.ready u (hpending u hu hne)
  · by_cases hne : u = t
    · subst hne
      rw [hself, hinj]
      exact hfits.waiting sema hmem
    · rw [hother u hne]
      exact h.waiting u (hpending u hu hne) sema hmem
  · by_cases hne : u = t
    · rw [hne, hself, hinj]
      exact hdying
    · rw [hother u hne]
      exact h.dying u
  · by_cases hne : s.idleThread = t
    · exact ⟨status, hne ▸ hself, fun heq ↦ hfits.idle heq hne.symm⟩
    · obtain ⟨old, hold, hlive⟩ := h.idle
      exact ⟨old, (hother _ hne).trans hold, hlive⟩

/-! ### Destroying threads -/

/-- A round of the loop of `do_schedule` frees the first page. -/
theorem reap_round (h : Books lists pending s Q) (hQ : Q .destruction = t :: B) : ∃ s',
    reapBody lists s = some (.inl s') ∧ Reaps s s' [t] ∧
      Books lists pending s' (Function.update Q .destruction B) := by
  obtain ⟨m, hpop, hqueues⟩ := h.queues.popFront hQ
  have hmem : t ∈ Q .destruction := hQ ▸ List.mem_cons_self
  have hdying := (h.dying t).mp hmem
  have hnodup := h.queues.nodup .destruction
  rw [hQ] at hnodup
  have hout : ∀ list, t ∉ Function.update Q .destruction B list := by
    intro list ht
    by_cases hlist : list = .destruction
    · subst hlist
      rw [Function.update_self] at ht
      exact (List.nodup_cons.mp hnodup).1 ht
    · rw [Function.update_of_ne hlist] at ht
      exact hlist (h.queues.unique ht hmem)
  have hstatus : ({ s with elems := m } : Kernel).status t = some .dying := hdying.1
  have hfree := hqueues.freePage (by rw [hstatus, Option.isSome_some]) hout
  have hother : ∀ u, u ≠ t → (freePage { s with elems := m } t).status u = s.status u :=
    fun u hu ↦ Function.update_of_ne hu ..
  have hself : (freePage { s with elems := m } t).status t = none := Function.update_self ..
  refine ⟨freePage { s with elems := m } t, ?_, ⟨rfl, rfl, rfl, ?_, rfl⟩,
    ⟨hfree, fun u hu ↦ ?_, fun u hu ↦ ?_, fun u hu sema hmem' ↦ ?_, fun u ↦ ?_, ?_, ?_, ?_, ?_⟩⟩
  · have hempty : listEmpty s.elems (lists .destruction) = some false := by
      rw [h.queues.listEmpty_eq, hQ]
      rfl
    simp [reapBody, hempty, hpop]
  · exact fun u hu ↦ hother u fun heq ↦ hu (List.mem_singleton.mpr heq)
  · by_cases hut : u = t
    · rw [hut, hself]
      exact (Option.some_ne_none _).symm
    · rw [hother u hut]
      exact h.running u hu
  · rw [Function.update_of_ne (by decide)]
    by_cases hut : u = t
    · subst hut
      refine ⟨fun hin ↦ absurd (h.queues.unique hin hmem) (by decide), fun hin ↦ ?_⟩
      rw [hself] at hin
      exact absurd hin.1.symm (Option.some_ne_none _)
    · rw [hother u hut]
      exact h.ready u hu
  · rw [Function.update_of_ne (by simp)] at hmem'
    have hut : u ≠ t := fun heq ↦ absurd (h.queues.unique (heq ▸ hmem') hmem) (by simp)
    rw [hother u hut]
    exact h.waiting u hu sema hmem'
  · rw [Function.update_self]
    by_cases hut : u = t
    · subst hut
      rw [hself]
      exact ⟨fun hin ↦ absurd hin (List.nodup_cons.mp hnodup).1,
        fun hin ↦ absurd hin.1.symm (Option.some_ne_none _)⟩
    · have hold := h.dying u
      rw [hQ, List.mem_cons, or_iff_right hut] at hold
      rw [hother u hut]
      exact hold
  · obtain ⟨status, hidle, hlive⟩ := h.idle
    have hne : s.idleThread ≠ t := by
      intro heq
      rw [heq, hdying.1] at hidle
      exact hlive (Option.some.inj hidle).symm
    exact ⟨status, (hother _ hne).trans hidle, hlive⟩
  · rw [Function.update_of_ne (by decide)]
    simpa [freePage, Kernel.note, departures, entries] using h.order
  · have hreaped := h.reaped
    rw [hQ] at hreaped
    simpa [freePage, Kernel.note, frees, deaths] using hreaped
  · simpa [freePage, Kernel.note, deaths] using h.kept

/-- The loop of `do_schedule` frees the pages of the threads on the destruction list. -/
theorem reap (h : Books lists pending s Q) : ∃ s',
    Returns (fun fuel ↦ whileLoop (reapBody lists) fuel s) s' ∧ Reaps s s' (Q .destruction) ∧
      Books lists pending s' (Function.update Q .destruction []) := by
  induction hQ : Q .destruction generalizing s Q with
  | nil =>
    refine ⟨s, returns_leave ?_, ⟨rfl, rfl, rfl, fun _ _ ↦ rfl, (List.append_nil _).symm⟩, ?_⟩
    · rw [reapBody, h.queues.listEmpty_eq, hQ]
      rfl
    · rwa [← hQ, Function.update_eq_self]
  | cons t B ih =>
    obtain ⟨s₁, hround, hreaps, hbooks⟩ := reap_round h hQ
    obtain ⟨s', hloop, hrest, hbooks'⟩ := ih hbooks (Function.update_self ..)
    refine ⟨s', returns_continue hround hloop, ⟨?_, ?_, ?_, fun u hu ↦ ?_, ?_⟩, ?_⟩
    · exact hrest.current.trans hreaps.current
    · exact hrest.idleThread.trans hreaps.idleThread
    · exact hrest.initialThread.trans hreaps.initialThread
    · rw [List.mem_cons, not_or] at hu
      rw [hrest.status u hu.2, hreaps.status u fun hmem ↦ hu.1 (List.mem_singleton.mp hmem)]
    · rw [hrest.trace, hreaps.trace, List.append_assoc, List.map_cons, List.map_nil,
        List.map_cons, List.singleton_append]
    · rwa [Function.update_idem] at hbooks'

/-! ### Switching threads -/

/-- The thread that runs next: the first of the ready list, or the idle thread. -/
def nextOf (s : Kernel) (Q : ListName → List ℕ) : ℕ := (Q .ready).head?.getD s.idleThread

theorem nextThreadToRun_eq (h : Queues lists s Q) : ∃ m,
    nextThreadToRun lists s = some (nextOf s Q,
      { s with elems := m, trace := s.trace ++ (Q .ready).head?.toList.map .left }) ∧
    Queues lists { s with elems := m } (Function.update Q .ready (Q .ready).tail) := by
  have hempty := h.listEmpty_eq .ready
  cases hQ : Q .ready with
  | nil =>
    refine ⟨s.elems, ?_, ?_⟩
    · simp [nextThreadToRun, hempty, hQ, nextOf]
    · rw [List.tail_nil, ← hQ, Function.update_eq_self]
      exact h
  | cons t B =>
    obtain ⟨m, hpop, hqueues⟩ := h.popFront hQ
    refine ⟨m, ?_, hqueues⟩
    simp [nextThreadToRun, hempty, hQ, hpop, nextOf, Kernel.note]

/-- The thread that runs next is not dying. -/
theorem nextOf_status (h : Books lists [] s Q) :
    ∃ status, s.status (nextOf s Q) = some status ∧ status ≠ .dying := by
  rw [nextOf]
  cases hQ : Q .ready with
  | nil => exact h.idle
  | cons t B =>
    have hmem : t ∈ Q .ready := hQ ▸ List.mem_cons_self
    exact ⟨.ready, ((h.ready t List.not_mem_nil).mp hmem).1, by decide⟩

/-- The thread that runs next leaves the ready list and is in no other one. -/
theorem nextOf_loose (h : Books lists [] s Q) (list : ListName) :
    nextOf s Q ∉ Function.update Q .ready (Q .ready).tail list := by
  intro hmem
  have hnodup := h.queues.nodup .ready
  have hlive := nextOf_status h
  cases list with
  | destruction =>
    rw [Function.update_of_ne (by decide)] at hmem
    obtain ⟨status, hstatus, hne⟩ := hlive
    exact hne (Option.some.inj (hstatus.symm.trans ((h.dying _).mp hmem).1))
  | ready =>
    rw [Function.update_self] at hmem
    rw [nextOf] at hmem
    cases hQ : Q .ready with
    | nil => simp [hQ] at hmem
    | cons t B =>
      rw [hQ] at hmem hnodup
      exact (List.nodup_cons.mp hnodup).1 hmem
  | waiters sema =>
    rw [Function.update_of_ne (by simp)] at hmem
    have hblocked := h.waiting _ List.not_mem_nil sema hmem
    rw [nextOf] at hblocked hmem
    cases hQ : Q .ready with
    | nil =>
      rw [hQ] at hblocked
      exact hblocked.2 rfl
    | cons t B =>
      rw [hQ] at hmem
      have hready : t ∈ Q .ready := hQ ▸ List.mem_cons_self
      exact absurd (h.queues.unique hready hmem) (by simp)

theorem mem_tail_ready (hne : t ≠ nextOf s Q) : t ∈ (Q .ready).tail ↔ t ∈ Q .ready := by
  rw [nextOf] at hne
  cases hQ : Q .ready with
  | nil => rfl
  | cons u B =>
    rw [hQ] at hne
    rw [List.tail_cons, List.mem_cons]
    exact (or_iff_right hne).symm

/-- The idle thread runs next when the ready list is empty, and then only. -/
theorem nextOf_eq_idle (h : Books lists [] s Q) : nextOf s Q = s.idleThread ↔ Q .ready = [] := by
  rw [nextOf]
  cases hQ : Q .ready with
  | nil => exact ⟨fun _ ↦ rfl, fun _ ↦ rfl⟩
  | cons t B =>
    have hmem : t ∈ Q .ready := hQ ▸ List.mem_cons_self
    refine ⟨fun heq ↦ ?_, fun heq ↦ absurd heq (List.cons_ne_nil _ _)⟩
    exact absurd heq ((h.ready t List.not_mem_nil).mp hmem).2

theorem departures_left (threads : List ℕ) : departures (threads.map .left) = threads := by
  induction threads with
  | nil => rfl
  | cons t threads ih => exact congrArg (t :: ·) ih

theorem deaths_died (threads : List ℕ) : deaths (threads.map .died) = threads := by
  induction threads with
  | nil => rfl
  | cons t threads ih => exact congrArg (t :: ·) ih

theorem frees_freed (threads : List ℕ) : frees (threads.map .freed) = threads := by
  induction threads with
  | nil => rfl
  | cons t threads ih => exact congrArg (t :: ·) ih

/-- The trace after a switch. -/
theorem trace_switch (left corpses : List ℕ) :
    entries (left.map .left ++ corpses.map .died) = [] ∧
      departures (left.map .left ++ corpses.map .died) = left ∧
      deaths (left.map .left ++ corpses.map .died) = corpses ∧
      frees (left.map .left ++ corpses.map .died) = [] := by
  refine ⟨?_, ?_, ?_, ?_⟩
  · simp [entries]
  · rw [departures_append, departures_left]
    simp [departures]
  · rw [deaths_append, deaths_died]
    simp [deaths]
  · simp [frees]

/-- The kernel after a switch from the current thread to the next one. -/
def switched (s : Kernel) (Q : ListName → List ℕ) (m : Elems) (corpses : List ℕ) : Kernel :=
  { s with
    elems := m
    status := Function.update s.status (nextOf s Q) (some .running)
    current := nextOf s Q
    trace := s.trace ++ ((Q .ready).head?.toList.map .left ++ corpses.map .died) }

/-- After a switch the next thread is running. -/
theorem consistent_switched {m : Elems} {corpses : List ℕ} (h : Books lists [] s Q)
    (hcorpses : ∀ t, t ∈ corpses ↔
      t = s.current ∧ s.status t = some .dying ∧ t ≠ s.initialThread)
    (hqueues : Queues lists (switched s Q m corpses)
      (Function.update (Function.update Q .ready (Q .ready).tail) .destruction
        (Q .destruction ++ corpses))) :
    Consistent lists (switched s Q m corpses)
      (Function.update (Function.update Q .ready (Q .ready).tail) .destruction
        (Q .destruction ++ corpses)) := by
  obtain ⟨status, hnext, hlive⟩ := nextOf_status h
  obtain ⟨hentries, hdepartures, hdeaths, hfrees⟩ :=
    trace_switch (Q .ready).head?.toList corpses
  have hself : (switched s Q m corpses).status (nextOf s Q) = some .running :=
    Function.update_self ..
  have hother : ∀ t, t ≠ nextOf s Q → (switched s Q m corpses).status t = s.status t :=
    fun t ht ↦ Function.update_of_ne ht ..
  have hpending : ∀ t, t ∉ [nextOf s Q] → t ≠ nextOf s Q :=
    fun t ht heq ↦ ht (List.mem_singleton.mpr heq)
  have hlooseDying : nextOf s Q ∉ Q .destruction ++ corpses := by
    intro hmem
    have hdying : s.status (nextOf s Q) = some .dying := by
      rcases List.mem_append.mp hmem with hmem | hmem
      · exact ((h.dying _).mp hmem).1
      · exact ((hcorpses _).mp hmem).2.1
    exact hlive (Option.some.inj (hnext.symm.trans hdying))
  refine ⟨⟨hqueues, fun t ht ↦ ?_, fun t ht ↦ ?_, fun t ht sema hmem ↦ ?_, fun t ↦ ?_, ?_, ?_, ?_,
    ?_⟩, hself, fun list ↦ ?_⟩
  · rw [hother t (hpending t ht)]
    exact h.running t List.not_mem_nil
  · rw [Function.update_of_ne (by decide), Function.update_self, mem_tail_ready (hpending t ht),
      hother t (hpending t ht)]
    exact h.ready t List.not_mem_nil
  · rw [Function.update_of_ne (by simp), Function.update_of_ne (by simp)] at hmem
    rw [hother t (hpending t ht)]
    exact h.waiting t List.not_mem_nil sema hmem
  · rw [Function.update_self]
    by_cases hne : t = nextOf s Q
    · subst hne
      exact ⟨fun hmem ↦ absurd hmem hlooseDying, fun hmem ↦ absurd rfl hmem.2.2⟩
    · rw [List.mem_append, h.dying, hcorpses, hother t hne]
      constructor
      · rintro (⟨hdying, hinitial, -⟩ | ⟨-, hdying, hinitial⟩)
        · exact ⟨hdying, hinitial, hne⟩
        · exact ⟨hdying, hinitial, hne⟩
      · rintro ⟨hdying, hinitial, -⟩
        by_cases hcurr : t = s.current
        · exact Or.inr ⟨hcurr, hdying, hinitial⟩
        · exact Or.inl ⟨hdying, hinitial, hcurr⟩
  · by_cases hne : s.idleThread = nextOf s Q
    · refine ⟨.running, ?_, by decide⟩
      rw [← hself, ← hne]
      rfl
    · obtain ⟨status, hidle, hlive⟩ := h.idle
      exact ⟨status, (hother _ hne).trans hidle, hlive⟩
  · have hready : (Q .ready).head?.toList ++ (Q .ready).tail = Q .ready := by
      cases Q .ready <;> rfl
    rw [Function.update_of_ne (by decide), Function.update_self]
    simp only [switched, departures_append, entries_append, hdepartures, hentries,
      List.append_nil, List.append_assoc, hready, h.order]
  · rw [Function.update_self]
    simp only [switched, frees_append, deaths_append, hfrees, hdeaths, List.append_nil]
    rw [← List.append_assoc, h.reaped]
  · simp only [switched, deaths_append, hdeaths, List.mem_append, not_or]
    exact ⟨h.kept, fun hmem ↦ ((hcorpses _).mp hmem).2.2 rfl⟩
  · by_cases hlist : list = .destruction
    · subst hlist
      rw [Function.update_self]
      exact hlooseDying
    · rw [Function.update_of_ne hlist]
      exact nextOf_loose h list

/-- What a switch does to the trace. -/
theorem switches (h : Books lists [] s Q) {m : Elems} {corpses : List ℕ}
    (hcorpses : ∀ t ∈ corpses, t = s.current ∧ s.status t = some .dying) :
    Switched s (Q .ready) [] (switched s Q m corpses) where
  next := rfl
  idle := nextOf_eq_idle h
  idleThread := rfl
  initialThread := rfl
  trace := by
    obtain ⟨-, -, hdeaths, hfrees⟩ := trace_switch (Q .ready).head?.toList corpses
    refine ⟨_, rfl, hfrees, fun t ht ↦ ?_⟩
    rw [hdeaths] at ht
    obtain ⟨hcurr, hdying⟩ := hcorpses t ht
    obtain ⟨status, hnext, hlive⟩ := nextOf_status h
    have hne : t ≠ nextOf s Q := by
      intro heq
      rw [← heq, hdying] at hnext
      exact hlive (Option.some.inj hnext).symm
    exact ⟨hcurr, hne, (Function.update_of_ne hne ..).trans hdying⟩

/-- `schedule` switches to the next thread. -/
theorem schedule_switches (h : Books lists [] s Q) (hcurr : (s.status s.current).isSome)
    (hloose : s.status s.current = some .dying → ∀ list, s.current ∉ Q list) : ∃ s' Q',
      schedule lists s = some s' ∧ Consistent lists s' Q' ∧ Switched s (Q .ready) [] s' := by
  obtain ⟨m, hpick, hqueues⟩ := nextThreadToRun_eq h.queues
  obtain ⟨status, hnext, hlive⟩ := nextOf_status h
  have hsome : (s.status (nextOf s Q)).isSome = true := by rw [hnext, Option.isSome_some]
  have hrunning : s.status s.current ≠ some .running := h.running _ List.not_mem_nil
  have hkeep : ∀ t, (Function.update s.status (nextOf s Q) (some Status.running) t).isSome =
      (s.status t).isSome := by
    intro t
    by_cases hne : t = nextOf s Q
    · rw [hne, Function.update_self, hsome, Option.isSome_some]
    · rw [Function.update_of_ne hne]
  by_cases hdying : s.status s.current = some .dying ∧ s.current ≠ s.initialThread
  · have hne : s.current ≠ nextOf s Q := by
      intro heq
      rw [← heq, hdying.1] at hnext
      exact hlive (Option.some.inj hnext).symm
    have hstatus : Function.update s.status (nextOf s Q) (some Status.running) s.current =
        s.status s.current := Function.update_of_ne hne ..
    have hout : ∀ list, s.current ∉ Function.update Q .ready (Q .ready).tail list := by
      intro list hmem
      by_cases hlist : list = .ready
      · subst hlist
        rw [Function.update_self] at hmem
        exact hloose hdying.1 .ready (List.mem_of_mem_tail hmem)
      · rw [Function.update_of_ne hlist] at hmem
        exact hloose hdying.1 list hmem
    have hqueues₁ : Queues lists (switched s Q m []) _ := hqueues.congr rfl hkeep
    have hcurr₁ : ((switched s Q m []).status s.current).isSome :=
      (congrArg Option.isSome hstatus).trans hcurr
    obtain ⟨m', hpush, hqueues'⟩ := hqueues₁.pushBack hcurr₁ hout .destruction
    rw [Function.update_of_ne (by decide)] at hqueues'
    have hcorpses : ∀ t, t ∈ [s.current] ↔
        t = s.current ∧ s.status t = some .dying ∧ t ≠ s.initialThread := by
      intro t
      rw [List.mem_singleton]
      exact ⟨fun heq ↦ ⟨heq, heq ▸ hdying⟩, fun hmem ↦ hmem.1⟩
    refine ⟨switched s Q m' [s.current], _, ?_, consistent_switched h hcorpses
      (hqueues'.congr rfl fun _ ↦ rfl), switches h fun t ht ↦ ?_⟩
    · have hcall : listPushBack m (lists .destruction) (elemOf s.current) = some m' := by
        obtain ⟨m₁, hcall, heq⟩ := Option.bind_eq_some_iff.mp hpush
        obtain rfl : m₁ = m' := congrArg Kernel.elems (Option.some.inj heq)
        exact hcall
      simp [schedule, hpick, assert_true, hsome, hne, Kernel.setStatus, hdying, pushBack, hcall,
        Kernel.note, switched]
    · exact ⟨((hcorpses t).mp ht).1, ((hcorpses t).mp ht).2.1⟩
  · have hcorpses : ∀ t, t ∈ [] ↔
        t = s.current ∧ s.status t = some .dying ∧ t ≠ s.initialThread := by
      intro t
      refine ⟨fun hmem ↦ absurd hmem List.not_mem_nil, ?_⟩
      rintro ⟨rfl, hmem⟩
      exact absurd hmem hdying
    have hlists : Function.update (Function.update Q .ready (Q .ready).tail) .destruction
        (Q .destruction ++ []) = Function.update Q .ready (Q .ready).tail := by
      rw [List.append_nil]
      exact Function.update_eq_self_iff.mpr (Function.update_of_ne (by decide) ..).symm
    refine ⟨switched s Q m [], _, ?_, consistent_switched h hcorpses
      (hlists.symm ▸ hqueues.congr rfl hkeep),
      switches h fun t ht ↦ absurd ht List.not_mem_nil⟩
    by_cases hne : s.current = nextOf s Q
    · have hrunning' : s.status (nextOf s Q) ≠ some .running := hne ▸ hrunning
      simp [schedule, hpick, assert_true, hrunning', hsome, hne, Kernel.setStatus, switched]
    · simp only [ne_eq] at hdying
      simp [schedule, hpick, assert_true, hrunning, hsome, hne, Kernel.setStatus, hdying, switched]

end Jungle.Scheduler
