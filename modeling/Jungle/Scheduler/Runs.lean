import Jungle.Scheduler.Calls
import Jungle.Lib.Run

/-!
# Runs of the scheduler

A run starts when `thread_start` has returned: the initial thread is running, and the only other one
is the idle thread. Threads are created, block, are unblocked, yield and exit; they wait for semaphores
and are woken. `run_scheduler` says that threads and lists are in step after every run, and what the
next call does.
-/

set_option autoImplicit false
set_option relaxedAutoImplicit false

namespace Jungle.Scheduler

open Jungle.Lib Jungle.KernelList

/-- The calls. A timer interrupt calls `thread_yield`. -/
inductive Call
  /-- `thread_create`, up to `allocate_tid` -/
  | create (page : Option ℕ)
  | unblock (t : ℕ)
  | block
  | yield
  | exit
  /-- a round of the loop of `sema_down` that blocks -/
  | wait (sema : ℕ)
  /-- what `sema_up` does with threads -/
  | wake (sema : ℕ)
deriving DecidableEq, Repr

/-- The kernel after a call. -/
def Call.exec (lists : ListName → KList) (fuel : ℕ) (s : Kernel) : Call → Option Kernel
  | .create page => some (threadCreate s page)
  | .unblock t => threadUnblock lists s t
  | .block => threadBlock lists s
  | .yield => threadYield lists fuel s
  | .exit => threadExit lists fuel s
  | .wait sema => semaWait lists s sema
  | .wake sema => semaWake lists s sema

/-- A thread gets a page that is not in use; a thread is unblocked when it is blocked and waits on no
list; the idle thread does nothing but block, and nobody unblocks it. -/
def Call.Allowed (lists : ListName → KList) (s : Kernel) : Call → Prop
  | .create page => ∀ t ∈ page, s.status t = none ∧ NoHeader lists (elemOf t)
  | .unblock t => s.status t = some .blocked ∧ t ≠ s.idleThread ∧
    ∀ Q, WellFormed lists s.elems (elemsOf Q) → ∀ list, t ∉ Q list
  | .exit => s.current ≠ s.idleThread
  | .wait _ => s.current ≠ s.idleThread
  | _ => True

/-- The ready list when a call looks for the next thread to run, if it does. -/
def Call.ready (s : Kernel) (Q : ListName → List ℕ) : Call → Option (List ℕ)
  | .create _ => none
  | .unblock _ => none
  | .wake _ => none
  | .yield => if s.current = s.idleThread then Q .ready else Q .ready ++ [s.current]
  | _ => Q .ready

/-- The threads whose pages a call frees. -/
def Call.victims (Q : ListName → List ℕ) : Call → List ℕ
  | .yield => Q .destruction
  | .exit => Q .destruction
  | _ => []

/-- What an allowed call that returns does. -/
def Step (lists : ListName → KList) (s : Kernel) (call : Call) (s' : Kernel) : Prop :=
  call.Allowed lists s ∧ Returns (fun fuel ↦ call.exec lists fuel s) s'

/-- `thread_start` has returned. -/
structure Started (lists : ListName → KList) (s : Kernel) : Prop where
  empty : Holds lists s.elems fun _ ↦ []
  cells : ∀ t, (s.status t).isSome → (s.elems (elemOf t)).isSome ∧ NoHeader lists (elemOf t)
  current : s.current = s.initialThread
  running : s.status s.initialThread = some .running
  idle : s.status s.idleThread = some .blocked ∨ s.status s.idleThread = some .ready
  others : ∀ t, t ≠ s.initialThread → t ≠ s.idleThread → s.status t = none
  trace : s.trace = []

/-- The lists hold the given threads, and threads and lists are in step. -/
structure InStep (lists : ListName → KList) (s : Kernel) (Q : ListName → List ℕ) : Prop where
  lists : WellFormed lists s.elems (elemsOf Q)
  running : ∀ t, s.status t = some .running ↔ t = s.current
  ready : ∀ t, s.status t = some .ready → t ≠ s.idleThread → (Q .ready).count t = 1
  queued : ∀ t ∈ Q .ready, s.status t = some .ready ∧ t ≠ s.idleThread
  order : departures s.trace ++ Q .ready = entries s.trace
  dying : ∀ t, s.status t = some .dying → t ≠ s.initialThread → (Q .destruction).count t = 1
  doomed : ∀ t ∈ Q .destruction,
    s.status t = some .dying ∧ t ≠ s.initialThread ∧ t ≠ s.current
  reaped : frees s.trace ++ Q .destruction = deaths s.trace
  kept : s.initialThread ∉ frees s.trace

/-- A call returns; it switches to the first thread of the ready list, to the idle thread if and only
if the list is empty, and it frees the pages it should, each one after another thread has been switched
to. -/
structure Conforms (s : Kernel) (Q : ListName → List ℕ) (call : Call) (s' : Kernel) : Prop where
  next : ∀ ready, call.ready s Q = some ready → s'.current = ready.head?.getD s.idleThread ∧
    (s'.current = s.idleThread ↔ ready = [])
  stays : call.ready s Q = none → s'.current = s.current
  fixed : s'.idleThread = s.idleThread ∧ s'.initialThread = s.initialThread
  trace : ∃ new, s'.trace = s.trace ++ new ∧ frees new = call.victims Q ∧
    ∀ t ∈ deaths new, t = s.current ∧ t ≠ s'.current ∧ s'.status t = some .dying

variable {lists : ListName → KList} {s s₀ s' : Kernel} {Q : ListName → List ℕ} {call : Call}
  {calls : List Call}

theorem Switched.conforms {ready : List ℕ} (h : Switched s ready (call.victims Q) s')
    (hready : call.ready s Q = some ready) : Conforms s Q call s' where
  next ready' hready' := by
    obtain rfl := Option.some.inj (hready.symm.trans hready')
    exact ⟨h.next, h.idle⟩
  stays hnone := absurd (hready.symm.trans hnone) (Option.some_ne_none _)
  fixed := ⟨h.idleThread, h.initialThread⟩
  trace := h.trace

theorem Stays.conforms (h : Stays s [] s') (hready : call.ready s Q = none)
    (hvictims : call.victims Q = []) : Conforms s Q call s' where
  next ready hready' := absurd (hready'.symm.trans hready) (Option.some_ne_none _)
  stays _ := h.current
  fixed := ⟨h.idleThread, h.initialThread⟩
  trace := by
    obtain ⟨new, htrace, hfrees, hdeaths⟩ := h.trace
    refine ⟨new, htrace, hfrees.trans hvictims.symm, fun t ht ↦ ?_⟩
    rw [hdeaths] at ht
    exact absurd ht List.not_mem_nil

/-- Every allowed call returns and keeps threads and lists in step. -/
theorem Consistent.executes (h : Consistent lists s Q) (hallowed : call.Allowed lists s) : ∃ s' Q',
    Returns (fun fuel ↦ call.exec lists fuel s) s' ∧ Consistent lists s' Q' ∧
      Conforms s Q call s' := by
  cases call with
  | create page =>
    cases page with
    | none => exact ⟨s, Q, returns_const rfl, h, (Stays.refl s).conforms rfl rfl⟩
    | some t =>
      obtain ⟨ht, hheader⟩ := hallowed t rfl
      obtain ⟨hconsistent, hstays⟩ := h.create ht hheader
      exact ⟨_, Q, returns_const rfl, hconsistent, hstays.conforms rfl rfl⟩
  | unblock t =>
    obtain ⟨ht, hidle, hout⟩ := hallowed
    obtain ⟨s', Q', hcall, hconsistent, hstays⟩ :=
      h.unblock ht hidle (hout Q h.queues.holds.wellFormed)
    exact ⟨s', Q', returns_const hcall, hconsistent, hstays.conforms rfl rfl⟩
  | block =>
    obtain ⟨s', Q', hcall, hconsistent, hswitched⟩ := h.block
    exact ⟨s', Q', returns_const hcall, hconsistent, hswitched.conforms rfl⟩
  | yield =>
    obtain ⟨s', Q', hcall, hconsistent, hswitched⟩ := h.yield
    refine ⟨s', Q', hcall, hconsistent, hswitched.conforms ?_⟩
    rw [Call.ready]
    split_ifs <;> rfl
  | exit =>
    obtain ⟨s', Q', hcall, hconsistent, hswitched⟩ := h.exit hallowed
    exact ⟨s', Q', hcall, hconsistent, hswitched.conforms rfl⟩
  | wait sema =>
    obtain ⟨s', Q', hcall, hconsistent, hswitched⟩ := h.wait hallowed sema
    exact ⟨s', Q', returns_const hcall, hconsistent, hswitched.conforms rfl⟩
  | wake sema =>
    obtain ⟨s', Q', hcall, hconsistent, hstays⟩ := h.wake sema
    exact ⟨s', Q', returns_const hcall, hconsistent, hstays.conforms rfl rfl⟩

theorem Consistent.inStep (h : Consistent lists s Q) : InStep lists s Q where
  lists := h.queues.holds.wellFormed
  running t := by
    refine ⟨fun hrunning ↦ ?_, fun heq ↦ heq ▸ h.current⟩
    by_contra hne
    exact h.running t (fun hmem ↦ hne (List.mem_singleton.mp hmem)) hrunning
  ready t ht hidle := by
    have hne : t ∉ [s.current] := by
      intro hmem
      rw [List.mem_singleton.mp hmem, h.current] at ht
      exact absurd ht (by decide)
    exact List.count_eq_one_of_mem (h.queues.nodup _) ((h.ready t hne).mpr ⟨ht, hidle⟩)
  queued t ht := by
    have hne : t ∉ [s.current] := fun hmem ↦ h.loose _ (List.mem_singleton.mp hmem ▸ ht)
    exact (h.ready t hne).mp ht
  order := h.order
  dying t ht hinitial := by
    have hne : t ≠ s.current := by
      rintro rfl
      rw [h.current] at ht
      exact absurd ht (by decide)
    exact List.count_eq_one_of_mem (h.queues.nodup _) ((h.dying t).mpr ⟨ht, hinitial, hne⟩)
  doomed t ht := (h.dying t).mp ht
  reaped := h.reaped
  kept hmem := h.kept (h.reaped ▸ List.mem_append_left _ hmem)

theorem Started.consistent (h : Started lists s) : Consistent lists s fun _ ↦ [] := by
  have hnone : ∀ t, t ∉ [s.current] → t ≠ s.idleThread → s.status t = none := fun t ht hidle ↦
    h.others t (fun heq ↦ ht (List.mem_singleton.mpr (heq.trans h.current.symm))) hidle
  have hdying : ∀ t, s.status t ≠ some .dying := by
    intro t ht
    by_cases hidle : t = s.idleThread
    · subst hidle
      rcases h.idle with hblocked | hready
      · exact absurd (hblocked.symm.trans ht) (by decide)
      · exact absurd (hready.symm.trans ht) (by decide)
    · by_cases hinitial : t = s.initialThread
      · rw [hinitial, h.running] at ht
        exact absurd ht (by decide)
      · rw [h.others t hinitial hidle] at ht
        exact absurd ht.symm (Option.some_ne_none _)
  refine ⟨⟨⟨h.empty, h.cells, fun _ _ hmem ↦ absurd hmem List.not_mem_nil⟩, fun t ht heq ↦ ?_,
    fun t ht ↦ ⟨fun hmem ↦ absurd hmem List.not_mem_nil, fun hready ↦ ?_⟩,
    fun t _ sema hmem ↦ absurd hmem List.not_mem_nil,
    fun t ↦ ⟨fun hmem ↦ absurd hmem List.not_mem_nil, fun hmem ↦ absurd hmem.1 (hdying t)⟩, ?_, ?_,
    ?_, ?_⟩, h.current ▸ h.running, fun _ ↦ List.not_mem_nil⟩
  · by_cases hidle : t = s.idleThread
    · rw [hidle] at heq
      rcases h.idle with hblocked | hready
      · exact absurd (hblocked.symm.trans heq) (by decide)
      · exact absurd (hready.symm.trans heq) (by decide)
    · rw [hnone t ht hidle] at heq
      exact absurd heq.symm (Option.some_ne_none _)
  · rw [hnone t ht hready.2] at hready
    exact absurd hready.1.symm (Option.some_ne_none _)
  · rcases h.idle with hblocked | hready
    · exact ⟨_, hblocked, by decide⟩
    · exact ⟨_, hready, by decide⟩
  · rw [h.trace]
    rfl
  · rw [h.trace]
    rfl
  · rw [h.trace]
    exact List.not_mem_nil

/-- Threads and lists are in step, and the initial thread is a certain one. -/
def Sound (lists : ListName → KList) (initial : ℕ) (s : Kernel) : Prop :=
  (∃ Q, Consistent lists s Q) ∧ s.initialThread = initial

theorem sound_step {initial : ℕ} (h : Sound lists initial s) (hstep : Step lists s call s') :
    Sound lists initial s' := by
  obtain ⟨⟨Q, h⟩, hinitial⟩ := h
  obtain ⟨s₁, Q₁, hreturns, hconsistent, hconforms⟩ := h.executes hstep.1
  obtain rfl := hstep.2.unique hreturns
  exact ⟨⟨Q₁, hconsistent⟩, hconforms.fixed.2.trans hinitial⟩

theorem sound_run (hstarted : Started lists s₀) (hrun : Run (Step lists) s₀ calls s) :
    Sound lists s₀.initialThread s :=
  Run.invariant (fun _ _ _ ↦ sound_step) hrun ⟨⟨_, hstarted.consistent⟩, rfl⟩

/-- After every run threads and lists are in step, and every allowed call does what it should. -/
theorem run_scheduler (hstarted : Started lists s₀) (hrun : Run (Step lists) s₀ calls s) :
    ∃ Q, InStep lists s Q ∧ ∀ call : Call, call.Allowed lists s → ∃ s' Q',
      Returns (fun fuel ↦ call.exec lists fuel s) s' ∧ InStep lists s' Q' ∧
        Conforms s Q call s' := by
  obtain ⟨⟨Q, h⟩, -⟩ := sound_run hstarted hrun
  refine ⟨Q, h.inStep, fun call hallowed ↦ ?_⟩
  obtain ⟨s', Q', hreturns, hconsistent, hconforms⟩ := h.executes hallowed
  exact ⟨s', Q', hreturns, hconsistent.inStep, hconforms⟩

/-! ### The initial thread -/

/-- Where the lists of a small machine are. -/
def bootLists : ListName → KList
  | .ready => ⟨64, 80⟩
  | .destruction => ⟨128, 144⟩
  | .waiters sema => ⟨64 * (sema + 3), 64 * (sema + 3) + 16⟩

/-- The machine after `thread_start`: the page of the initial thread is at 4096, that of the idle thread
at 8192. -/
def boot : Kernel where
  elems a :=
    if a % 64 = 0 then some ⟨none, some (a + 16)⟩
    else if a % 64 = 16 then some ⟨some (a - 16), none⟩
    else some ⟨none, none⟩
  status t := if t = 4096 then some .running else if t = 8192 then some .blocked else none
  current := 4096
  idleThread := 8192
  initialThread := 4096
  trace := []

theorem bootLists_inj {list list' : ListName}
    (h : (bootLists list).head = (bootLists list').head) : list = list' := by
  cases list <;> cases list' <;> first
    | rfl
    | (simp only [bootLists] at h; first | omega | exact congrArg ListName.waiters (by omega))

theorem bootLists_eq (list : ListName) : ∃ n, bootLists list = ⟨64 * n, 64 * n + 16⟩ ∧
    ∀ list', bootLists list' = ⟨64 * n, 64 * n + 16⟩ → list' = list := by
  cases list with
  | ready => exact ⟨1, rfl, fun list' h ↦ bootLists_inj (congrArg KList.head h)⟩
  | destruction => exact ⟨2, rfl, fun list' h ↦ bootLists_inj (congrArg KList.head h)⟩
  | waiters sema => exact ⟨sema + 3, rfl, fun list' h ↦ bootLists_inj (congrArg KList.head h)⟩

theorem started_boot : Started bootLists boot where
  empty := by
    refine ⟨fun list ↦ ?_, fun list ↦ ?_, fun list list' hne a ha ha' ↦ ?_⟩
    · obtain ⟨n, hn, -⟩ := bootLists_eq list
      have hhead : boot.elems (64 * n) = some ⟨none, some (64 * n + 16)⟩ := by
        simp [boot]
      have htail : boot.elems (64 * n + 16) = some ⟨some (64 * n), none⟩ := by
        simp [boot]
      rw [hn]
      refine ⟨?_, fun a ha ↦ ?_, fun a ha ↦ ?_⟩
      · simp [nodes, KernelList.after, KernelList.before, hhead, htail]
      · obtain rfl : 64 * n = a := Option.some.inj ha
        rw [KernelList.prev, hhead, Option.map_some]
      · obtain rfl : 64 * n + 16 = a := Option.some.inj ha
        rw [KernelList.next, htail, Option.map_some]
    · obtain ⟨n, hn, -⟩ := bootLists_eq list
      rw [hn]
      simp [nodes]
    · obtain ⟨n, hn, hunique⟩ := bootLists_eq list
      obtain ⟨k, hk, -⟩ := bootLists_eq list'
      have hnk : n ≠ k := by
        rintro rfl
        exact hne (hunique list' hk).symm
      rw [hn] at ha
      rw [hk] at ha'
      simp only [nodes, List.nil_append, List.mem_cons, List.not_mem_nil, or_false] at ha ha'
      omega
  cells t ht := by
    refine ⟨?_, fun list ↦ ?_⟩
    · simp only [boot]
      split_ifs <;> rfl
    · obtain ⟨n, hn, -⟩ := bootLists_eq list
      have hpage : t = 4096 ∨ t = 8192 := by
        simp only [boot] at ht
        by_contra hne
        rw [not_or] at hne
        simp [hne] at ht
      rw [hn]
      simp only [elemOf, elemOffset]
      omega
  current := rfl
  running := rfl
  idle := Or.inl rfl
  others t ht hidle := by
    have ht' : t ≠ 4096 := ht
    have hidle' : t ≠ 8192 := hidle
    simp only [boot, if_neg ht', if_neg hidle']
  trace := rfl

/-- The kernel after the initial thread has exited. -/
def afterMain : Kernel :=
  { boot with
    status := Function.update (Function.update boot.status 4096 (some .dying)) 8192 (some .running)
    current := 8192 }

theorem returns_afterMain :
    Returns (fun fuel ↦ Call.exec bootLists fuel boot .exit) afterMain := by
  refine ⟨0, fun fuel hfuel ↦ ?_⟩
  obtain ⟨fuel, rfl⟩ : ∃ n, fuel = n + 1 := ⟨fuel - 1, by omega⟩
  rfl

theorem run_afterMain : Run (Step bootLists) boot [.exit] afterMain :=
  Run.single ⟨show 4096 ≠ 8192 by decide, returns_afterMain⟩

/-- A run to the exit of the initial thread. -/
theorem run_scheduler_exit : ∃ Q, InStep bootLists afterMain Q :=
  have ⟨Q, hinStep, _⟩ := run_scheduler started_boot run_afterMain
  ⟨Q, hinStep⟩

/-- The initial thread exits, another thread is switched to, and whatever happens then the page of the
initial thread is not freed. -/
theorem initial_never_freed : Started bootLists boot ∧
    Run (Step bootLists) boot [.exit] afterMain ∧
    afterMain.status afterMain.initialThread = some .dying ∧
    afterMain.current ≠ afterMain.initialThread ∧
    ∀ calls s, Run (Step bootLists) afterMain calls s → afterMain.initialThread ∉ frees s.trace := by
  refine ⟨started_boot, run_afterMain, rfl, by decide, fun calls s hrun ↦ ?_⟩
  obtain ⟨⟨Q, h⟩, hinitial⟩ := sound_run started_boot (run_afterMain.append hrun)
  have hkept := h.inStep.kept
  rwa [hinitial] at hkept

end Jungle.Scheduler
