import Jungle.Scheduler.Books

/-!
# What the calls do

Each function of the scheduler keeps threads and lists in step. Those that switch to another thread
say which one it is, and which pages are freed before that.
-/

set_option autoImplicit false
set_option relaxedAutoImplicit false

namespace Jungle.Scheduler

open Jungle.Lib Jungle.KernelList

/-- The running thread goes on running and no thread dies; the pages of some have been freed. -/
structure Stays (s : Kernel) (victims : List ℕ) (s' : Kernel) : Prop where
  current : s'.current = s.current
  idleThread : s'.idleThread = s.idleThread
  initialThread : s'.initialThread = s.initialThread
  trace : ∃ new, s'.trace = s.trace ++ new ∧ frees new = victims ∧ deaths new = []

variable {lists : ListName → KList} {s s₁ s' : Kernel} {Q : ListName → List ℕ} {t sema : ℕ}
  {status : Status} {ready victims victims' : List ℕ}

theorem Stays.refl (s : Kernel) : Stays s [] s :=
  ⟨rfl, rfl, rfl, [], (List.append_nil _).symm, rfl, rfl⟩

theorem Reaps.stays (h : Reaps s s' victims) : Stays s victims s' where
  current := h.current
  idleThread := h.idleThread
  initialThread := h.initialThread
  trace := by
    refine ⟨_, h.trace, frees_freed victims, ?_⟩
    induction victims with
    | nil => rfl
    | cons t victims ih => simp [deaths]

/-- What happens before a switch. -/
theorem Stays.switched (h : Stays s victims s₁) (h' : Switched s₁ ready victims' s') :
    Switched s ready (victims ++ victims') s' where
  next := h'.next.trans (by rw [h.idleThread])
  idle := h.idleThread ▸ h'.idle
  idleThread := h'.idleThread.trans h.idleThread
  initialThread := h'.initialThread.trans h.initialThread
  trace := by
    obtain ⟨new, htrace, hfrees, hdeaths⟩ := h.trace
    obtain ⟨later, htrace', hfrees', hdied⟩ := h'.trace
    refine ⟨new ++ later, ?_, ?_, fun t ht ↦ ?_⟩
    · rw [htrace', htrace, List.append_assoc]
    · rw [frees_append, hfrees, hfrees']
    · rw [deaths_append, hdeaths, List.nil_append] at ht
      exact h.current ▸ hdied t ht

/-- The current thread gets another status and gives way. -/
theorem leave_switches (h : Books lists [s.current] s Q) (hcurr : s.status s.current = some .running)
    (hfits : Fits s Q s.current status) : ∃ s' Q',
      schedule lists (s.setStatus s.current status) = some s' ∧ Consistent lists s' Q' ∧
        Switched s (Q .ready) [] s' := by
  have hsome : (s.status s.current).isSome := by rw [hcurr, Option.isSome_some]
  have hself : (s.setStatus s.current status).status s.current = some status :=
    Function.update_self ..
  have hsome' : ((s.setStatus s.current status).status s.current).isSome := by
    rw [hself, Option.isSome_some]
  have hdead : s.current ∉ Q .destruction := fun hmem ↦ ((h.dying _).mp hmem).2.2 rfl
  have hbooks : Books lists [] (s.setStatus s.current status) Q :=
    h.settle hsome hfits ⟨fun hmem ↦ absurd hmem hdead, fun hmem ↦ absurd rfl hmem.2.2⟩
  have hloose : (s.setStatus s.current status).status s.current = some .dying →
      ∀ list, s.current ∉ Q list := by
    intro hdying list hmem
    obtain rfl : status = .dying := Option.some.inj (hself.symm.trans hdying)
    cases list with
    | ready => exact absurd (hfits.ready.mp hmem).1 (by decide)
    | destruction => exact hdead hmem
    | waiters sema => exact absurd (hfits.waiting sema hmem).1 (by decide)
  obtain ⟨s', Q', hcall, hconsistent, hswitched⟩ := schedule_switches hbooks hsome' hloose
  have hstays : Stays s [] (s.setStatus s.current status) :=
    ⟨rfl, rfl, rfl, [], (List.append_nil _).symm, rfl, rfl⟩
  exact ⟨s', Q', hcall, hconsistent, hstays.switched hswitched⟩

/-- `do_schedule` frees the pages of the threads on the destruction list and switches. -/
theorem doSchedule_switches (h : Books lists [s.current] s Q)
    (hcurr : s.status s.current = some .running) (hfits : Fits s Q s.current status) : ∃ s' Q',
      Returns (fun fuel ↦ doSchedule lists fuel s status) s' ∧ Consistent lists s' Q' ∧
        Switched s (Q .ready) (Q .destruction) s' := by
  obtain ⟨s₁, hloop, hreaps, hbooks⟩ := reap h
  have hdead : s.current ∉ Q .destruction := fun hmem ↦ ((h.dying _).mp hmem).2.2 rfl
  have hcurr₁ : s₁.status s₁.current = some .running := by
    rw [hreaps.current, hreaps.status _ hdead, hcurr]
  have hfits₁ : Fits s₁ (Function.update Q .destruction []) s₁.current status := by
    rw [hreaps.current]
    refine ⟨hfits.running, ?_, fun sema hmem ↦ ?_, ?_⟩
    · rw [Function.update_of_ne (by decide), hreaps.idleThread]
      exact hfits.ready
    · rw [Function.update_of_ne (by simp)] at hmem
      rw [hreaps.idleThread]
      exact hfits.waiting sema hmem
    · rw [hreaps.idleThread]
      exact hfits.idle
  obtain ⟨s', Q', hcall, hconsistent, hswitched⟩ :=
    leave_switches (hreaps.current.symm ▸ hbooks) hcurr₁ hfits₁
  rw [Function.update_of_ne (by decide)] at hswitched
  have hswitched' := hreaps.stays.switched hswitched
  rw [List.append_nil] at hswitched'
  refine ⟨s', Q', ?_, hconsistent, hswitched'⟩
  have hbind : Returns (fun fuel ↦ (whileLoop (reapBody lists) fuel s).bind fun s₁ ↦
      schedule lists (s₁.setStatus s₁.current status)) s' :=
    hloop.bind (returns_const hcall)
  simpa only [doSchedule, hcurr, decide_true, assert_true, Option.bind_eq_bind, Option.bind_some]
    using hbind

namespace Consistent

/-- A blocked thread is not the current one. -/
theorem blocked_ne (h : Consistent lists s Q) (ht : s.status t = some .blocked) :
    s.current ≠ t := by
  rintro rfl
  exact absurd (h.current.symm.trans ht) (by decide)

theorem isSome_current (h : Consistent lists s Q) : (s.status s.current).isSome := by
  rw [h.current, Option.isSome_some]

/-- A thread in no list may be blocked. -/
theorem fits (h : Consistent lists s Q) (hrunning : status ≠ .running)
    (hready : status = .ready → s.current = s.idleThread)
    (hidle : status = .dying → s.current ≠ s.idleThread) : Fits s Q s.current status where
  running := hrunning
  ready := ⟨fun hmem ↦ absurd hmem (h.loose _), fun hmem ↦ absurd (hready hmem.1) hmem.2⟩
  waiting _ hmem := absurd hmem (h.loose _)
  idle := hidle

/-- `thread_block` -/
theorem block (h : Consistent lists s Q) : ∃ s' Q', threadBlock lists s = some s' ∧
    Consistent lists s' Q' ∧ Switched s (Q .ready) [] s' := by
  have hfits : Fits s Q s.current .blocked := h.fits (by decide) nofun nofun
  obtain ⟨s', Q', hcall, hrest⟩ := leave_switches h.toBooks h.current hfits
  refine ⟨s', Q', ?_, hrest⟩
  simp only [threadBlock, h.current, decide_true, assert_true, Option.bind_eq_bind,
    Option.bind_some, hcall]

/-- `thread_exit` -/
theorem exit (h : Consistent lists s Q) (hidle : s.current ≠ s.idleThread) : ∃ s' Q',
    Returns (fun fuel ↦ threadExit lists fuel s) s' ∧ Consistent lists s' Q' ∧
      Switched s (Q .ready) (Q .destruction) s' :=
  doSchedule_switches h.toBooks h.current (h.fits (by decide) nofun fun _ ↦ hidle)

/-- `thread_yield` -/
theorem yield (h : Consistent lists s Q) : ∃ s' Q',
    Returns (fun fuel ↦ threadYield lists fuel s) s' ∧ Consistent lists s' Q' ∧
      Switched s (if s.current = s.idleThread then Q .ready else Q .ready ++ [s.current])
        (Q .destruction) s' := by
  by_cases hidle : s.current = s.idleThread
  · have hfits : Fits s Q s.current .ready := h.fits (by decide) (fun _ ↦ hidle) nofun
    obtain ⟨s', Q', hcall, hconsistent, hswitched⟩ := doSchedule_switches h.toBooks h.current hfits
    have hcurr : s.status s.idleThread = some .running := hidle ▸ h.current
    refine ⟨s', Q', ?_, hconsistent, (if_pos hidle).symm ▸ hswitched⟩
    simpa [threadYield, hidle, hcurr, assert_true] using hcall
  · obtain ⟨m, hpush, hbooks⟩ := h.toBooks.push h.isSome_current h.loose .ready (by decide)
      [.entered s.current] rfl ⟨rfl, rfl, rfl⟩
    have hfits : Fits { s with elems := m, trace := s.trace ++ [.entered s.current] }
        (Function.update Q .ready (Q .ready ++ [s.current])) s.current .ready := by
      refine ⟨by decide, ⟨fun _ ↦ ⟨rfl, hidle⟩, fun _ ↦ ?_⟩, fun sema hmem ↦ ?_, nofun⟩
      · rw [Function.update_self]
        exact List.mem_append_right _ (List.mem_singleton.mpr rfl)
      · rw [Function.update_of_ne (by simp)] at hmem
        exact absurd hmem (h.loose _)
    obtain ⟨s', Q', hcall, hconsistent, hswitched⟩ := doSchedule_switches
      (s := { s with elems := m, trace := s.trace ++ [.entered s.current] }) hbooks h.current hfits
    rw [Function.update_self, Function.update_of_ne (by decide)] at hswitched
    have hstays : Stays s [] { s with elems := m, trace := s.trace ++ [.entered s.current] } :=
      ⟨rfl, rfl, rfl, _, rfl, rfl, rfl⟩
    refine ⟨s', Q', ?_, hconsistent, (if_neg hidle).symm ▸ hstays.switched hswitched⟩
    simpa [threadYield, hidle, h.current, assert_true, hpush, Kernel.note] using hcall

/-- A round of `sema_down` that blocks. -/
theorem wait (h : Consistent lists s Q) (hidle : s.current ≠ s.idleThread) (sema : ℕ) : ∃ s' Q',
    semaWait lists s sema = some s' ∧ Consistent lists s' Q' ∧ Switched s (Q .ready) [] s' := by
  obtain ⟨m, hpush, hbooks⟩ := h.toBooks.push h.isSome_current h.loose (.waiters sema) (by simp) []
    rfl ⟨rfl, rfl, rfl⟩
  have hfits : Fits { s with elems := m, trace := s.trace ++ [] }
      (Function.update Q (.waiters sema) (Q (.waiters sema) ++ [s.current])) s.current .blocked := by
    refine ⟨by decide, ⟨fun hmem ↦ ?_, nofun⟩, fun _ _ ↦ ⟨rfl, hidle⟩, nofun⟩
    rw [Function.update_of_ne (by simp)] at hmem
    exact absurd hmem (h.loose _)
  obtain ⟨s', Q', hcall, hconsistent, hswitched⟩ :=
    leave_switches (s := { s with elems := m, trace := s.trace ++ [] }) hbooks h.current hfits
  rw [Function.update_of_ne (by simp)] at hswitched
  have hstays : Stays s [] { s with elems := m, trace := s.trace ++ [] } :=
    ⟨rfl, rfl, rfl, _, rfl, rfl, rfl⟩
  refine ⟨s', Q', ?_, hconsistent, hstays.switched hswitched⟩
  rw [List.append_nil] at hcall
  simp only [semaWait, hpush, threadBlock, h.current, decide_true, assert_true,
    Option.bind_eq_bind, Option.bind_some, hcall]

/-- `thread_unblock` of a thread in no list. -/
theorem unblock (h : Consistent lists s Q) (ht : s.status t = some .blocked)
    (hidle : t ≠ s.idleThread) (hout : ∀ list, t ∉ Q list) : ∃ s' Q',
      threadUnblock lists s t = some s' ∧ Consistent lists s' Q' ∧ Stays s [] s' := by
  have hsome : (s.status t).isSome := by rw [ht, Option.isSome_some]
  have hbooks₀ : Books lists (t :: [s.current]) s Q :=
    h.toBooks.mono (List.subset_cons_self _ _)
  obtain ⟨m, hpush, hbooks⟩ := hbooks₀.push hsome hout .ready (by decide) [.entered t] rfl
    ⟨rfl, rfl, rfl⟩
  have hfits : Fits { s with elems := m, trace := s.trace ++ [.entered t] }
      (Function.update Q .ready (Q .ready ++ [t])) t .ready := by
    refine ⟨by decide, ⟨fun _ ↦ ⟨rfl, hidle⟩, fun _ ↦ ?_⟩, fun sema hmem ↦ ?_, nofun⟩
    · rw [Function.update_self]
      exact List.mem_append_right _ (List.mem_singleton.mpr rfl)
    · rw [Function.update_of_ne (by simp)] at hmem
      exact absurd hmem (hout _)
  have hdying : t ∈ Function.update Q .ready (Q .ready ++ [t]) .destruction ↔
      Status.ready = .dying ∧ t ≠ s.initialThread ∧ t ≠ s.current := by
    rw [Function.update_of_ne (by decide)]
    exact ⟨fun hmem ↦ absurd hmem (hout _), nofun⟩
  have hne := h.blocked_ne ht
  refine ⟨Kernel.setStatus { s with elems := m, trace := s.trace ++ [.entered t] } t .ready, _, ?_,
    ⟨hbooks.settle hsome hfits hdying, ?_, fun list hmem ↦ ?_⟩, rfl, rfl, rfl, [.entered t], rfl,
    rfl, rfl⟩
  · simp [threadUnblock, ht, assert_true, hpush, Kernel.note]
  · exact (Function.update_of_ne hne ..).trans h.current
  · by_cases hlist : list = .ready
    · subst hlist
      rw [Function.update_self, List.mem_append, List.mem_singleton] at hmem
      exact hmem.elim (h.loose _) hne
    · rw [Function.update_of_ne hlist] at hmem
      exact h.loose list hmem

/-- Taking a thread off the list of a semaphore. -/
theorem popWaiter (h : Consistent lists s Q) {B : List ℕ} (hQ : Q (.waiters sema) = t :: B) : ∃ m,
    popFront lists s (.waiters sema) = some (t, { s with elems := m }) ∧
      Consistent lists { s with elems := m } (Function.update Q (.waiters sema) B) := by
  obtain ⟨m, hpop, hqueues⟩ := h.queues.popFront hQ
  have hsub : ∀ list, Function.update Q (.waiters sema) B list ⊆ Q list := by
    intro list u hu
    by_cases hlist : list = .waiters sema
    · subst hlist
      rw [Function.update_self] at hu
      exact hQ ▸ List.mem_cons_of_mem t hu
    · rwa [Function.update_of_ne hlist] at hu
  refine ⟨m, hpop, ⟨hqueues, h.running, fun u hu ↦ ?_, fun u hu sema' hmem ↦ ?_, fun u ↦ ?_, h.idle,
    ?_, ?_, h.kept⟩, h.current, fun list hmem ↦ h.loose list (hsub list hmem)⟩
  · rw [Function.update_of_ne (by simp)]
    exact h.ready u hu
  · exact h.waiting u hu sema' (hsub _ hmem)
  · rw [Function.update_of_ne (by simp)]
    exact h.dying u
  · rw [Function.update_of_ne (by simp)]
    exact h.order
  · rw [Function.update_of_ne (by simp)]
    exact h.reaped

/-- What `sema_up` does with threads. -/
theorem wake (h : Consistent lists s Q) (sema : ℕ) : ∃ s' Q',
    semaWake lists s sema = some s' ∧ Consistent lists s' Q' ∧ Stays s [] s' := by
  have hempty := h.queues.listEmpty_eq (.waiters sema)
  cases hQ : Q (.waiters sema) with
  | nil =>
    refine ⟨s, Q, ?_, h, Stays.refl s⟩
    simp [semaWake, hempty, hQ]
  | cons t B =>
    obtain ⟨m, hpop, hconsistent⟩ := h.popWaiter hQ
    have hmem : t ∈ Q (.waiters sema) := hQ ▸ List.mem_cons_self
    have hne : t ∉ [s.current] := fun heq ↦
      h.loose _ (List.mem_singleton.mp heq ▸ hmem)
    have hblocked := h.waiting t hne sema hmem
    have hout : ∀ list, t ∉ Function.update Q (.waiters sema) B list := by
      intro list hin
      by_cases hlist : list = .waiters sema
      · subst hlist
        rw [Function.update_self] at hin
        have hnodup := h.queues.nodup (.waiters sema)
        rw [hQ] at hnodup
        exact (List.nodup_cons.mp hnodup).1 hin
      · rw [Function.update_of_ne hlist] at hin
        exact hlist (h.queues.unique hin hmem)
    obtain ⟨s', Q', hcall, hconsistent', hstays⟩ := hconsistent.unblock hblocked.1 hblocked.2 hout
    refine ⟨s', Q', ?_, hconsistent', hstays.current, hstays.idleThread, hstays.initialThread,
      hstays.trace⟩
    simp [semaWake, hempty, hQ, hpop, hcall]

/-- `thread_create`, up to `allocate_tid`. -/
theorem create (h : Consistent lists s Q) (ht : s.status t = none)
    (hheader : NoHeader lists (elemOf t)) :
    Consistent lists (threadCreate s (some t)) Q ∧ Stays s [] (threadCreate s (some t)) := by
  have hout : ∀ list, t ∉ Q list := by
    intro list hmem
    simpa [ht] using h.queues.threads list t hmem
  have hself : (threadCreate s (some t)).status t = some .blocked := Function.update_self ..
  have hother : ∀ u, u ≠ t → (threadCreate s (some t)).status u = s.status u :=
    fun u hu ↦ Function.update_of_ne hu ..
  have hcurr : s.current ≠ t := by
    intro heq
    have hrunning := h.current
    rw [heq, ht] at hrunning
    exact absurd hrunning.symm (Option.some_ne_none _)
  refine ⟨⟨⟨h.queues.create ht hheader, fun u hu ↦ ?_, fun u hu ↦ ?_, fun u hu sema hmem ↦ ?_,
    fun u ↦ ?_, ?_, h.order, h.reaped, h.kept⟩, (hother _ hcurr).trans h.current, h.loose⟩,
    rfl, rfl, rfl, [], (List.append_nil _).symm, rfl, rfl⟩
  · by_cases hne : u = t
    · rw [hne, hself]
      decide
    · rw [hother u hne]
      exact h.running u hu
  · by_cases hne : u = t
    · rw [hne, hself]
      exact ⟨fun hmem ↦ absurd hmem (hout _), fun hmem ↦ absurd hmem.1 (by decide)⟩
    · rw [hother u hne]
      exact h.ready u hu
  · have hne : u ≠ t := fun heq ↦ hout _ (heq ▸ hmem)
    rw [hother u hne]
    exact h.waiting u hu sema hmem
  · by_cases hne : u = t
    · rw [hne, hself]
      exact ⟨fun hmem ↦ absurd hmem (hout _), fun hmem ↦ absurd hmem.1 (by decide)⟩
    · rw [hother u hne]
      exact h.dying u
  · by_cases hne : s.idleThread = t
    · exact ⟨.blocked, hne ▸ hself, by decide⟩
    · obtain ⟨status, hidle, hlive⟩ := h.idle
      exact ⟨status, (hother _ hne).trans hidle, hlive⟩

end Consistent

end Jungle.Scheduler
