import Jungle.Threads.Ownership
import Mathlib.Order.Nat

/-!
# Semaphores and those that wait

The threads on the list of a semaphore are those that sleep in the loop of `sema_down` on it
(`Sleepers`). `Wakes` says that as long as a thread sleeps the threads that have been woken and have
not tested again are no fewer than the value. `run_semaphores` says for all runs that locks exclude,
that the values count and that no wake-up is lost.
-/

set_option autoImplicit false
set_option relaxedAutoImplicit false

namespace Jungle.Threads

open Jungle.Lib

/-- The next thing the thread does is the test of the loop of `sema_down` again. -/
def Retests (s : State) (r : SemaRef) (t : ℕ) : Prop := ∃ rest, s.todo t = .semaRetest r :: rest

/-- A thread that `sema_up` has woken and that has not tested the value again. -/
def Woken (s : State) (r : SemaRef) (t : ℕ) : Prop := s.blocked t = false ∧ Retests s r t

/-- The lists of the semaphores hold the threads that are blocked. -/
structure Sleepers (s : State) : Prop where
  sleeping : ∀ r t, t ∈ (s.semas r).waiters ↔ s.blocked t = true ∧ Retests s r t
  asleep : ∀ t, s.blocked t = true → ∃ r, Retests s r t
  nodup : ∀ r, (s.semas r).waiters.Nodup

/-- The semaphore in the frame of a thread is initialised and lowered by that thread only. -/
def Op.Private (t : ℕ) : Op → Prop
  | .semaInit r _ => r = .waiter t
  | .semaDown (.waiter u) => u = t
  | .semaRetest (.waiter u) => u = t
  | _ => True

/-- While threads sleep on a semaphore, at least as many as its value are on their way to it. -/
def Wakes (s : State) : Prop :=
  ∀ r, (s.semas r).waiters ≠ [] → ∃ threads : List ℕ, threads.Nodup ∧
    (∀ t ∈ threads, Woken s r t) ∧ (s.semas r).value ≤ threads.length

variable {lockOf : ℕ → ℕ} {s s' : State} {t u w : ℕ} {r : SemaRef} {op : Op}
  {rest more waiters : List Op} {e : Event}

theorem Retests.unique {r' : SemaRef} (h : Retests s r t) (h' : Retests s r' t) : r = r' := by
  obtain ⟨rest, hrest⟩ := h
  obtain ⟨rest', hrest'⟩ := h'
  rw [hrest] at hrest'
  exact Op.semaRetest.inj (List.head_eq_of_cons_eq hrest')

/-- What comes next for another thread does not change. -/
theorem retests_congr (h : s'.todo t = s.todo t) : Retests s' r t ↔ Retests s r t := by
  rw [Retests, h, Retests]

/-! ### Sleeping -/

/-- A thread that runs is on no list. -/
theorem Sleepers.not_mem (h : Sleepers s) (hready : s.blocked t = false) (r : SemaRef) :
    t ∉ (s.semas r).waiters := by
  intro hmem
  have hblocked := ((h.sleeping r t).mp hmem).1
  rw [hready] at hblocked
  exact Bool.false_ne_true hblocked

/-- A step that changes no list and blocks no thread. -/
theorem Sleepers.pass (h : Sleepers s) (hready : s.blocked t = false)
    (hwaiters : ∀ r, (s'.semas r).waiters = (s.semas r).waiters) (hblocked : s'.blocked = s.blocked)
    (htodo : ∀ u, u ≠ t → s'.todo u = s.todo u) : Sleepers s' where
  sleeping r u := by
    rw [hwaiters, hblocked]
    by_cases hut : u = t
    · subst hut
      simp [h.not_mem hready, hready]
    · rw [retests_congr (htodo u hut)]
      exact h.sleeping r u
  asleep u hu := by
    rw [hblocked] at hu
    have hut : u ≠ t := by
      rintro rfl
      exact Bool.false_ne_true (hready.symm.trans hu)
    obtain ⟨r, hr⟩ := h.asleep u hu
    exact ⟨r, (retests_congr (htodo u hut)).mpr hr⟩
  nodup r := by
    rw [hwaiters]
    exact h.nodup r

/-- A thread goes to sleep. -/
theorem Sleepers.sleep (h : Sleepers s) (hready : s.blocked t = false)
    (hwaiters : (s'.semas r).waiters = (s.semas r).waiters ++ [t])
    (hother : ∀ r', r' ≠ r → (s'.semas r').waiters = (s.semas r').waiters)
    (hblocked : s'.blocked = Function.update s.blocked t true) (hretests : Retests s' r t)
    (htodo : ∀ u, u ≠ t → s'.todo u = s.todo u) : Sleepers s' where
  sleeping r' u := by
    rw [hblocked]
    by_cases hut : u = t
    · subst hut
      rw [Function.update_self]
      by_cases hr : r' = r
      · subst hr
        simp [hwaiters, hretests]
      · have hnot : ¬Retests s' r' u := fun h' ↦ hr (h'.unique hretests)
        simp [hother r' hr, h.not_mem hready, hnot]
    · rw [Function.update_of_ne hut, retests_congr (htodo u hut), ← h.sleeping r' u]
      by_cases hr : r' = r
      · subst hr
        simp [hwaiters, hut]
      · rw [hother r' hr]
  asleep u hu := by
    by_cases hut : u = t
    · exact ⟨r, hut ▸ hretests⟩
    · rw [hblocked, Function.update_of_ne hut] at hu
      obtain ⟨r', hr'⟩ := h.asleep u hu
      exact ⟨r', (retests_congr (htodo u hut)).mpr hr'⟩
  nodup r' := by
    by_cases hr : r' = r
    · subst hr
      rw [hwaiters]
      refine List.nodup_append.mpr ⟨h.nodup r', by simp, fun a ha b hb hab ↦ ?_⟩
      rw [hab, List.mem_singleton.mp hb] at ha
      exact h.not_mem hready r' ha
    · rw [hother r' hr]
      exact h.nodup r'

/-- The first thread on a list is woken. -/
theorem Sleepers.wake {waiters : List ℕ} (h : Sleepers s) (hready : s.blocked t = false)
    (hfirst : (s.semas r).waiters = w :: waiters) (hwaiters : (s'.semas r).waiters = waiters)
    (hother : ∀ r', r' ≠ r → (s'.semas r').waiters = (s.semas r').waiters)
    (hblocked : s'.blocked = Function.update s.blocked w false)
    (htodo : ∀ u, u ≠ t → s'.todo u = s.todo u) : Sleepers s' := by
  have hw : s.blocked w = true ∧ Retests s r w := (h.sleeping r w).mp (hfirst ▸ List.mem_cons_self)
  have hnodup := h.nodup r
  rw [hfirst, List.nodup_cons] at hnodup
  have hwt : w ≠ t := by
    rintro rfl
    exact Bool.false_ne_true (hready.symm.trans hw.1)
  have hmem : ∀ r' u, u ≠ w → (u ∈ (s'.semas r').waiters ↔ u ∈ (s.semas r').waiters) := by
    intro r' u hu
    by_cases hr : r' = r
    · subst hr
      rw [hwaiters, hfirst, List.mem_cons, or_iff_right hu]
    · rw [hother r' hr]
  refine ⟨fun r' u ↦ ?_, fun u hu ↦ ?_, fun r' ↦ ?_⟩
  · rw [hblocked]
    by_cases huw : u = w
    · subst huw
      rw [Function.update_self]
      refine iff_of_false (fun hu ↦ ?_) fun hu ↦ Bool.false_ne_true hu.1
      by_cases hr : r' = r
      · subst hr
        rw [hwaiters] at hu
        exact hnodup.1 hu
      · rw [hother r' hr] at hu
        exact hr (((h.sleeping r' u).mp hu).2.unique hw.2)
    · rw [hmem r' u huw, Function.update_of_ne huw]
      by_cases hut : u = t
      · subst hut
        simp [h.not_mem hready, hready]
      · rw [retests_congr (htodo u hut)]
        exact h.sleeping r' u
  · have huw : u ≠ w := by
      rintro rfl
      rw [hblocked, Function.update_self] at hu
      exact Bool.false_ne_true hu
    rw [hblocked, Function.update_of_ne huw] at hu
    have hut : u ≠ t := by
      rintro rfl
      exact Bool.false_ne_true (hready.symm.trans hu)
    obtain ⟨r', hr'⟩ := h.asleep u hu
    exact ⟨r', (retests_congr (htodo u hut)).mpr hr'⟩
  · by_cases hr : r' = r
    · subst hr
      rw [hwaiters]
      exact hnodup.2
    · rw [hother r' hr]
      exact h.nodup r'

/-! ### Private semaphores -/

theorem executes_private (h : Executes lockOf s t op s' more e) (hop : op.Private t) :
    ∀ op' ∈ more, op'.Private t := by
  cases h with
  | sleep hop' hzero =>
    intro op' hmem
    rw [List.mem_singleton.mp hmem]
    rcases hop' with rfl | rfl
    · rename_i r
      cases r <;> exact hop
    · exact hop
  | _ => simp [condSignal, Op.Private]

theorem call_private (lockOf : ℕ → ℕ) (t : ℕ) (f : Call) : ∀ op ∈ f.ops lockOf t, op.Private t := by
  cases f <;> simp [Call.ops, lockAcquire, lockTryAcquire, lockRelease, condWait, condSignal,
    Op.Private]

/-- The operations left to every thread use its own semaphore only. -/
def AllPrivate (s : State) : Prop := ∀ t, ∀ op ∈ s.todo t, op.Private t

theorem allPrivate_step (h : AllPrivate s) (hstep : Step lockOf s (t, e) s') : AllPrivate s' := by
  cases hstep with
  | @call _ f hidle hready hallowed =>
    intro u
    change ∀ op ∈ (s.setTodo t (f.ops lockOf t)).todo u, op.Private u
    by_cases hut : u = t
    · subst hut
      rw [State.setTodo_self]
      exact call_private lockOf u f
    · rw [State.setTodo_of_ne s hut]
      exact h u
  | @exec s₁ _ op rest more _ htodo hready hexec =>
    have hexecutes := exec_executes hexec
    intro u
    by_cases hut : u = t
    · subst hut
      have hops := h u
      rw [htodo] at hops
      rw [State.setTodo_self]
      refine fun op' hop' ↦ (List.mem_append.mp hop').elim ?_ fun hrest ↦ ?_
      · exact executes_private hexecutes (hops op List.mem_cons_self) op'
      · exact hops op' (List.mem_cons_of_mem _ hrest)
    · rw [State.setTodo_of_ne _ hut, hexecutes.frame.1]
      exact h u
  | returned hcall htodo hready => exact h

/-- No other thread is on the list of the semaphore of a thread. -/
theorem Sleepers.waiter (h : Sleepers s) (hprivate : AllPrivate s)
    (hmem : u ∈ (s.semas (.waiter t)).waiters) : u = t := by
  obtain ⟨rest, hrest⟩ := ((h.sleeping _ u).mp hmem).2
  have hop := hprivate u (.semaRetest (.waiter t)) (hrest ▸ List.mem_cons_self)
  exact Eq.symm hop

/-! ### Steps -/

theorem setSema_waiters (s : State) (r r' : SemaRef) {sema : Semaphore}
    (h : sema.waiters = (s.semas r).waiters) :
    ((s.setSema r sema).semas r').waiters = (s.semas r').waiters := by
  by_cases hr : r' = r
  · subst hr
    rw [State.setSema_self, h]
  · rw [State.setSema_of_ne s hr]

/-- A step keeps the lists. -/
theorem sleepers_step (h : Sleepers s) (hprivate : AllPrivate s)
    (hstep : Step lockOf s (t, e) s') : Sleepers s' := by
  cases hstep with
  | @call _ f hidle hready hallowed =>
    exact h.pass hready (fun _ ↦ rfl) rfl fun u hu ↦ State.setTodo_of_ne s hu _
  | returned hcall htodo hready => exact h.pass hready (fun _ ↦ rfl) rfl fun _ _ ↦ rfl
  | @exec s₁ _ op rest more _ htodo hready hexec =>
    have hexecutes := exec_executes hexec
    have htodo' : ∀ u, u ≠ t → (s₁.setTodo t (more ++ rest)).todo u = s.todo u := fun u hu ↦ by
      rw [State.setTodo_of_ne _ hu, hexecutes.frame.1]
    have hpass : (∀ r, (s₁.semas r).waiters = (s.semas r).waiters) → s₁.blocked = s.blocked →
        Sleepers (s₁.setTodo t (more ++ rest)) := fun hwaiters hblocked ↦
      h.pass hready hwaiters hblocked htodo'
    cases hexecutes with
    | semaInit r value =>
      have hr : r = .waiter t := hprivate t (.semaInit r value) (htodo ▸ List.mem_cons_self)
      have hempty : (s.semas r).waiters = [] := by
        refine List.eq_nil_iff_forall_not_mem.mpr fun u hu ↦ ?_
        subst hr
        obtain rfl := h.waiter hprivate hu
        exact h.not_mem hready _ hu
      exact hpass (fun r' ↦ setSema_waiters s r r' hempty.symm) rfl
    | @sleep _ r hop hzero =>
      exact h.sleep hready (congrArg Semaphore.waiters (s.setSema_self r _))
        (fun r' hr ↦ congrArg Semaphore.waiters (s.setSema_of_ne hr _)) rfl
        ⟨rest, State.setTodo_self ..⟩ htodo'
    | @take _ r hop hpos => exact hpass (fun r' ↦ setSema_waiters s r r' rfl) rfl
    | lockTryDown hpos => exact hpass (fun r' ↦ setSema_waiters s _ r' rfl) rfl
    | @raise r hempty => exact hpass (fun r' ↦ setSema_waiters s r r' hempty.symm) rfl
    | @wake r w waiters hfirst hblocked =>
      exact h.wake hready hfirst (congrArg Semaphore.waiters (s.setSema_self r _))
        (fun r' hr ↦ congrArg Semaphore.waiters (s.setSema_of_ne hr _)) rfl htodo'
    | _ => exact hpass (fun _ ↦ rfl) rfl

/-! ### Wake-ups -/

/-- The other threads that have been woken still are, and they are enough. -/
theorem Wakes.keep (h : Wakes s) (htodo : ∀ u, u ≠ t → s'.todo u = s.todo u)
    (hblocked : ∀ u, u ≠ t → s.blocked u = false → s'.blocked u = false)
    (hwaiters : (s.semas r).waiters ≠ [])
    (hvalue : (s'.semas r).value = 0 ∨ (s'.semas r).value + 1 ≤ (s.semas r).value ∨
      ¬Retests s r t ∧ (s'.semas r).value ≤ (s.semas r).value) :
    ∃ threads : List ℕ, threads.Nodup ∧ (∀ u ∈ threads, u ≠ t ∧ Woken s r u ∧ Woken s' r u) ∧
      (s'.semas r).value ≤ threads.length := by
  obtain ⟨threads, hnodup, hwoken, hle⟩ := h r hwaiters
  refine ⟨threads.erase t, hnodup.erase t, fun u hu ↦ ?_, ?_⟩
  · obtain ⟨hut, hmem⟩ := hnodup.mem_erase_iff.mp hu
    obtain ⟨hready, hretests⟩ := hwoken u hmem
    exact ⟨hut, ⟨hready, hretests⟩, hblocked u hut hready, (retests_congr (htodo u hut)).mpr hretests⟩
  · by_cases hmem : t ∈ threads
    · rw [List.length_erase_of_mem hmem]
      rcases hvalue with hzero | hless | ⟨hnot, -⟩
      · omega
      · omega
      · exact absurd (hwoken t hmem).2 hnot
    · rw [List.erase_of_not_mem hmem]
      omega

/-- A step that wakes nobody. -/
theorem Wakes.pass (h : Wakes s) (htodo : ∀ u, u ≠ t → s'.todo u = s.todo u)
    (hblocked : ∀ u, u ≠ t → s.blocked u = false → s'.blocked u = false)
    (hstep : ∀ r, (s'.semas r).waiters ≠ [] → (s'.semas r).value = 0 ∨
      (s.semas r).waiters ≠ [] ∧ ((s'.semas r).value + 1 ≤ (s.semas r).value ∨
        ¬Retests s r t ∧ (s'.semas r).value ≤ (s.semas r).value)) : Wakes s' := by
  intro r hr
  rcases hstep r hr with hzero | ⟨hwaiters, hvalue⟩
  · exact ⟨[], List.nodup_nil, fun u hu ↦ absurd hu List.not_mem_nil, hzero.le⟩
  · obtain ⟨threads, hnodup, hwoken, hle⟩ := h.keep htodo hblocked hwaiters (Or.inr hvalue)
    exact ⟨threads, hnodup, fun u hu ↦ (hwoken u hu).2.2, hle⟩

/-- A thread is woken as the value goes up. -/
theorem Wakes.wake {waiters : List ℕ} (h : Wakes s) (hsleepers : Sleepers s)
    (hready : s.blocked t = false) (hnot : ∀ r, ¬Retests s r t)
    (hfirst : (s.semas r).waiters = w :: waiters)
    (hvalue : (s'.semas r).value ≤ (s.semas r).value + 1)
    (hother : ∀ r', r' ≠ r → s'.semas r' = s.semas r')
    (hblocked : s'.blocked = Function.update s.blocked w false)
    (htodo : ∀ u, u ≠ t → s'.todo u = s.todo u) : Wakes s' := by
  have hw : s.blocked w = true ∧ Retests s r w :=
    (hsleepers.sleeping r w).mp (hfirst ▸ List.mem_cons_self)
  have hwt : w ≠ t := by
    rintro rfl
    exact Bool.false_ne_true (hready.symm.trans hw.1)
  have hkeep : ∀ u, u ≠ t → s.blocked u = false → s'.blocked u = false := by
    intro u _ hu
    rw [hblocked]
    by_cases huw : u = w
    · rw [huw, Function.update_self]
    · rwa [Function.update_of_ne huw]
  intro r' hr'
  by_cases hr : r' = r
  · subst hr
    obtain ⟨threads, hnodup, hwoken, hle⟩ := h r' (hfirst ▸ List.cons_ne_nil w waiters)
    have hnotMem : w ∉ threads := fun hmem ↦
      Bool.false_ne_true ((hwoken w hmem).1.symm.trans hw.1)
    refine ⟨w :: threads, List.nodup_cons.mpr ⟨hnotMem, hnodup⟩, fun u hu ↦ ?_, ?_⟩
    · rcases List.mem_cons.mp hu with rfl | hmem
      · exact ⟨by rw [hblocked, Function.update_self], (retests_congr (htodo u hwt)).mpr hw.2⟩
      · have hut : u ≠ t := by
          rintro rfl
          exact hnot r' (hwoken u hmem).2
        exact ⟨hkeep u hut (hwoken u hmem).1, (retests_congr (htodo u hut)).mpr (hwoken u hmem).2⟩
    · rw [List.length_cons]
      omega
  · have hwaiters : (s.semas r').waiters ≠ [] := hother r' hr ▸ hr'
    obtain ⟨threads, hnodup, hwoken, hle⟩ :=
      h.keep htodo hkeep hwaiters (Or.inr (Or.inr ⟨hnot r', (congrArg Semaphore.value (hother r' hr)).le⟩))
    exact ⟨threads, hnodup, fun u hu ↦ (hwoken u hu).2.2, hle⟩

theorem not_retests (h : s.todo t = op :: rest) (hop : ∀ r, op ≠ .semaRetest r) (r : SemaRef) :
    ¬Retests s r t := by
  rintro ⟨rest', hrest'⟩
  rw [h] at hrest'
  exact hop r (List.head_eq_of_cons_eq hrest')

/-- A step that changes one semaphore at most and wakes nobody. -/
theorem Wakes.change {sema : Semaphore} (h : Wakes s) (htodo : ∀ u, u ≠ t → s'.todo u = s.todo u)
    (hblocked : ∀ u, u ≠ t → s.blocked u = false → s'.blocked u = false)
    (hsemas : s'.semas = (s.setSema r sema).semas) (hnot : ∀ r', r' ≠ r → ¬Retests s r' t)
    (hstep : sema.waiters ≠ [] → sema.value = 0 ∨ (s.semas r).waiters ≠ [] ∧
      (sema.value + 1 ≤ (s.semas r).value ∨ ¬Retests s r t ∧ sema.value ≤ (s.semas r).value)) :
    Wakes s' := by
  refine h.pass htodo hblocked fun r' hr' ↦ ?_
  rw [hsemas] at hr' ⊢
  by_cases hr : r' = r
  · subst hr
    rw [State.setSema_self] at hr' ⊢
    exact hstep hr'
  · rw [State.setSema_of_ne s hr] at hr' ⊢
    exact Or.inr ⟨hr', Or.inr ⟨hnot r' hr, le_rfl⟩⟩

/-- A step loses no wake-up. -/
theorem wakes_step (h : Wakes s) (hsleepers : Sleepers s)
    (hidle : ∀ t, s.call t = none → s.todo t = []) (hstep : Step lockOf s (t, e) s') :
    Wakes s' := by
  cases hstep with
  | @call _ f hcall hready hallowed =>
    refine h.pass (t := t) (fun u hu ↦ State.setTodo_of_ne s hu _) (fun _ _ hu ↦ hu)
      fun r hr ↦ Or.inr ⟨hr, Or.inr ⟨?_, le_rfl⟩⟩
    rintro ⟨rest, hrest⟩
    rw [hidle t hcall] at hrest
    exact List.cons_ne_nil _ _ hrest.symm
  | @returned _ f hcall htodo hready =>
    refine h.pass (t := t) (fun _ _ ↦ rfl) (fun _ _ hu ↦ hu) fun r hr ↦
      Or.inr ⟨hr, Or.inr ⟨?_, le_rfl⟩⟩
    rintro ⟨rest, hrest⟩
    rw [htodo] at hrest
    exact List.cons_ne_nil _ _ hrest.symm
  | @exec s₁ _ op rest more _ htodo hready hexec =>
    have hexecutes := exec_executes hexec
    have htodo' : ∀ u, u ≠ t → (s₁.setTodo t (more ++ rest)).todo u = s.todo u := fun u hu ↦ by
      rw [State.setTodo_of_ne _ hu, hexecutes.frame.1]
    have hpass : s₁.semas = s.semas → s₁.blocked = s.blocked → (∀ r, op ≠ .semaRetest r) →
        Wakes (s₁.setTodo t (more ++ rest)) := by
      intro hsemas hblocked hop
      refine h.pass htodo' (fun u _ hu ↦ hblocked ▸ hu) fun r hr ↦ ?_
      change ((s₁.semas r).waiters) ≠ [] at hr
      change (s₁.semas r).value = 0 ∨ _ ∧ (_ ∨ _ ∧ (s₁.semas r).value ≤ _)
      rw [hsemas] at hr ⊢
      exact Or.inr ⟨hr, Or.inr ⟨not_retests htodo hop r, le_rfl⟩⟩
    cases hexecutes with
    | semaInit r value =>
      exact h.change htodo' (fun _ _ hu ↦ hu) rfl
        (fun r' _ ↦ not_retests htodo (fun _ ↦ Op.noConfusion) r') fun hne ↦ absurd rfl hne
    | @sleep _ r hop hzero =>
      refine h.change htodo' (fun u hut hu ↦ ?_) rfl (fun r' hr hr' ↦ ?_) fun _ ↦ Or.inl hzero
      · exact (Function.update_of_ne hut ..).trans hu
      · obtain ⟨rest', hrest'⟩ := hr'
        rw [htodo] at hrest'
        rcases hop with rfl | rfl
        · exact Op.noConfusion (List.head_eq_of_cons_eq hrest')
        · exact hr (Op.semaRetest.inj (List.head_eq_of_cons_eq hrest')).symm
    | @take _ r hop hpos =>
      refine h.change htodo' (fun _ _ hu ↦ hu) rfl (fun r' hr hr' ↦ ?_) fun hne ↦ ?_
      · obtain ⟨rest', hrest'⟩ := hr'
        rw [htodo] at hrest'
        rcases hop with rfl | rfl | ⟨x, rfl, -⟩
        · exact Op.noConfusion (List.head_eq_of_cons_eq hrest')
        · exact hr (Op.semaRetest.inj (List.head_eq_of_cons_eq hrest')).symm
        · exact Op.noConfusion (List.head_eq_of_cons_eq hrest')
      · exact Or.inr ⟨hne, Or.inl (Nat.sub_add_cancel hpos).le⟩
    | lockTryDown hpos =>
      exact h.change htodo' (fun _ _ hu ↦ hu) rfl
        (fun r' _ ↦ not_retests htodo (fun _ ↦ Op.noConfusion) r') fun hne ↦
          Or.inr ⟨hne, Or.inl (Nat.sub_add_cancel hpos).le⟩
    | raise hempty =>
      exact h.change htodo' (fun _ _ hu ↦ hu) rfl
        (fun r' _ ↦ not_retests htodo (fun _ ↦ Op.noConfusion) r') fun hne ↦ absurd rfl hne
    | @wake r w waiters hfirst hblocked =>
      refine h.wake hsleepers hready (not_retests htodo fun _ ↦ Op.noConfusion) hfirst ?_
        (fun r' hr ↦ State.setSema_of_ne s hr _) rfl htodo'
      rw [show ((((s.setSema r ⟨((s.semas r).value + 1) % unsignedSize, waiters⟩).setBlocked w
        false).setTodo t ([] ++ rest)).semas r).value = ((s.semas r).value + 1) % unsignedSize from
        congrArg Semaphore.value (s.setSema_self r _)]
      exact Nat.mod_le _ _
    | _ => exact hpass rfl rfl fun _ ↦ Op.noConfusion

/-! ### Values -/

/-- How often a semaphore has been raised. -/
def ups (history : List (ℕ × Event)) (r : SemaRef) : ℕ := (history.map Prod.snd).count (.upped r)

/-- How many downs of a semaphore have been completed. -/
def downs (history : List (ℕ × Event)) (r : SemaRef) : ℕ := (history.map Prod.snd).count (.downed r)

/-- The value is the first value plus the ups minus the completed downs, as an `unsigned`. -/
def Counts (first : ℕ) (history : List (ℕ × Event)) (s : State) (r : SemaRef) : Prop :=
  downs history r ≤ first + ups history r ∧
    (s.semas r).value = (first + ups history r - downs history r) % unsignedSize

variable {history : List (ℕ × Event)} {first : ℕ}

theorem ups_snoc : ups (history ++ [(t, e)]) r =
    ups history r + if e = .upped r then 1 else 0 := by
  simp [ups, List.count_append, List.count_singleton]

theorem downs_snoc : downs (history ++ [(t, e)]) r =
    downs history r + if e = .downed r then 1 else 0 := by
  simp [downs, List.count_append, List.count_singleton]

/-- What a step does to the value of a semaphore goes with what happens. -/
theorem value_step (hprivate : AllPrivate s) (hr : ∀ u, r ≠ .waiter u)
    (hstep : Step lockOf s (t, e) s') :
    (e ≠ .upped r ∧ e ≠ .downed r ∧ (s'.semas r).value = (s.semas r).value) ∨
    (e = .upped r ∧ (s'.semas r).value = ((s.semas r).value + 1) % unsignedSize) ∨
    (e = .downed r ∧ (s'.semas r).value + 1 = (s.semas r).value) := by
  cases hstep with
  | call hidle hready hallowed => exact Or.inl ⟨Event.noConfusion, Event.noConfusion, rfl⟩
  | returned hcall htodo hready => exact Or.inl ⟨Event.noConfusion, Event.noConfusion, rfl⟩
  | @exec s₁ _ op rest more _ htodo hready hexec =>
    change _ ∧ _ ∧ (s₁.semas r).value = _ ∨ _ ∧ (s₁.semas r).value = _ ∨
      _ ∧ (s₁.semas r).value + 1 = _
    have hset : ∀ (r' : SemaRef) (sema : Semaphore), r ≠ r' →
        ((s.setSema r' sema).semas r).value = (s.semas r).value := fun r' sema hne ↦
      congrArg Semaphore.value (s.setSema_of_ne hne sema)
    have hexecutes := exec_executes hexec
    cases hexecutes with
    | semaInit r' value =>
      have hr' : r' = .waiter t := hprivate t (.semaInit r' value) (htodo ▸ List.mem_cons_self)
      exact Or.inl ⟨Event.noConfusion, Event.noConfusion, hset r' _ (hr' ▸ hr t)⟩
    | @sleep _ r' hop hzero =>
      exact Or.inl ⟨Event.noConfusion, Event.noConfusion, setSema_value s r' r _⟩
    | @take _ r' hop hpos =>
      by_cases hne : r = r'
      · subst hne
        rw [State.take, State.setSema_self]
        exact Or.inr (Or.inr ⟨rfl, Nat.sub_add_cancel hpos⟩)
      · exact Or.inl ⟨Event.noConfusion, fun h ↦ hne (Event.downed.inj h).symm, hset r' _ hne⟩
    | @lockTryDown l hpos =>
      by_cases hne : r = .lock l
      · subst hne
        rw [State.take, State.setSema_self]
        exact Or.inr (Or.inr ⟨rfl, Nat.sub_add_cancel hpos⟩)
      · exact Or.inl ⟨Event.noConfusion, fun h ↦ hne (Event.downed.inj h).symm, hset _ _ hne⟩
    | @raise r' hempty =>
      by_cases hne : r = r'
      · subst hne
        rw [State.setSema_self]
        exact Or.inr (Or.inl ⟨rfl, rfl⟩)
      · exact Or.inl ⟨fun h ↦ hne (Event.upped.inj h).symm, Event.noConfusion, hset r' _ hne⟩
    | @wake r' w waiters hfirst hblocked =>
      by_cases hne : r = r'
      · subst hne
        exact Or.inr (Or.inl ⟨rfl, congrArg Semaphore.value (s.setSema_self r _)⟩)
      · exact Or.inl ⟨fun h ↦ hne (Event.upped.inj h).symm, Event.noConfusion, hset r' _ hne⟩
    | _ => exact Or.inl ⟨Event.noConfusion, Event.noConfusion, rfl⟩

/-- A step keeps count. -/
theorem counts_step (h : Counts first history s r) (hprivate : AllPrivate s)
    (hr : ∀ u, r ≠ .waiter u) (hstep : Step lockOf s (t, e) s') :
    Counts first (history ++ [(t, e)]) s' r := by
  obtain ⟨hle, hvalue⟩ := h
  have hsize : unsignedSize = 4294967296 := rfl
  rw [Counts, ups_snoc, downs_snoc]
  rcases value_step hprivate hr hstep with ⟨hup, hdown, hsame⟩ | ⟨rfl, hup⟩ | ⟨rfl, hdown⟩
  · rw [if_neg hup, if_neg hdown, hsame]
    exact ⟨hle, hvalue⟩
  · rw [hup]
    simp only [hsize, reduceCtorEq, if_true, if_false] at hvalue ⊢
    omega
  · simp only [hsize, reduceCtorEq, if_true, if_false] at hvalue ⊢
    omega

/-! ### Runs -/

/-- A thread is between a successful acquire of a lock and the matching release. -/
def Between (history : List (ℕ × Event)) (l t : ℕ) : Prop :=
  history.count (t, .upped (.lock l)) < history.count (t, .downed (.lock l))

/-- At most one thread is between acquire and release, and the holder is. -/
structure Excludes (history : List (ℕ × Event)) (s : State) (l : ℕ) : Prop where
  unique : ∀ t u, Between history l t → Between history l u → t = u
  holder : ∀ t, s.holder l = some t → Between history l t

/-- What goes with the semaphores and locks in the course of a run. -/
structure Sound (lockOf : ℕ → ℕ) (value : ℕ → ℕ) (s : State) (history : List (ℕ × Event)) :
    Prop where
  owned : ∃ ph, Owned lockOf s ph ∧ Counted history ph
  sleepers : Sleepers s
  privates : AllPrivate s
  wakes : Wakes s
  counts : ∀ x, Counts (value x) history s (.sema x)

theorem sound_step {value : ℕ → ℕ} (h : Sound lockOf value s history)
    (hstep : Step lockOf s (t, e) s') : Sound lockOf value s' (history ++ [(t, e)]) := by
  obtain ⟨ph, howned, hcounted⟩ := h.owned
  exact ⟨owned_step howned hcounted hstep, sleepers_step h.sleepers h.privates hstep,
    allPrivate_step h.privates hstep, wakes_step h.wakes h.sleepers howned.idle hstep,
    fun x ↦ counts_step (h.counts x) h.privates (fun _ ↦ SemaRef.noConfusion) hstep⟩

theorem sound_initial {value : ℕ → ℕ} (hvalue : ∀ x, value x < unsignedSize) :
    Sound lockOf value (initial value) [] where
  owned := ⟨_, owned_initial value, fun _ _ ↦ rfl⟩
  sleepers :=
    ⟨fun r t ↦ iff_of_false (by cases r <;> exact List.not_mem_nil) fun h ↦ Bool.false_ne_true h.1,
      fun t h ↦ absurd h Bool.false_ne_true, fun r ↦ by cases r <;> exact List.nodup_nil⟩
  privates _ _ hop := absurd hop List.not_mem_nil
  wakes r hr := by cases r <;> exact absurd rfl hr
  counts x := ⟨Nat.zero_le _, (Nat.mod_eq_of_lt (hvalue x)).symm⟩

theorem Sound.excludes {value : ℕ → ℕ} (h : Sound lockOf value s history) (l : ℕ) :
    Excludes history s l := by
  obtain ⟨ph, howned, hcounted⟩ := h.owned
  have hbetween : ∀ t, Between history l t ↔ ph t l ≠ .out := fun t ↦ by
    rw [Between, hcounted t l, Phase.units]
    split_ifs with hout
    · simp [hout]
    · simp [hout]
  refine ⟨fun t u ht hu ↦ ?_, fun t ht ↦ ?_⟩
  · exact (howned.locks l).unique ((hbetween t).mp ht) ((hbetween u).mp hu)
  · rw [hbetween t, ((howned.locks l).holder t).mp ht]
    exact Phase.noConfusion

/-- `thread_unblock` is called for blocked threads only. -/
theorem Sleepers.semaUp_ne_none (h : Sleepers s) (r : SemaRef) : semaUp s r ≠ none := by
  unfold semaUp
  cases hwaiters : (s.semas r).waiters with
  | nil => exact Option.some_ne_none _
  | cons w waiters =>
    have hblocked := ((h.sleeping r w).mp (hwaiters ▸ List.mem_cons_self)).1
    simp [hblocked]

/-- In every run locks exclude, the values count as an `unsigned` does, no wake-up is lost, and
`thread_unblock` is called for blocked threads only. -/
theorem run_semaphores {value : ℕ → ℕ} (hvalue : ∀ x, value x < unsignedSize)
    (hrun : Run (Step lockOf) (initial value) history s) :
    (∀ l, Excludes history s l) ∧ (∀ x, Counts (value x) history s (.sema x)) ∧ Wakes s ∧
      ∀ r, semaUp s r ≠ none := by
  have hkeep : ∀ (s : State) (past : List (ℕ × Event)) (label : ℕ × Event) (s' : State),
      Sound lockOf value s past → Step lockOf s label s' → Sound lockOf value s' (past ++ [label]) :=
    fun _ _ _ _ h hstep ↦ sound_step h hstep
  have hsound := hrun.history hkeep (sound_initial hvalue)
  exact ⟨hsound.excludes, hsound.counts, hsound.wakes, hsound.sleepers.semaUp_ne_none⟩

/-- Thread 1 takes lock 0. -/
theorem run_semaphores_acquire : ∃ s, s.holder 0 = some 1 ∧ Excludes
    [(1, .call (.lockAcquire 0)), (1, .silent), (1, .downed (.lock 0)), (1, .silent)] s 0 := by
  have hrun : ∃ s, Run (Step id) (initial fun _ ↦ 0)
      [(1, .call (.lockAcquire 0)), (1, .silent), (1, .downed (.lock 0)), (1, .silent)] s ∧
        s.holder 0 = some 1 :=
    ⟨_, .cons (.call rfl rfl trivial) (.cons (.exec (rfl : _ = Op.assertNotHeld 0 :: _) rfl rfl)
      (.cons (.exec (rfl : _ = Op.semaDown (.lock 0) :: _) rfl rfl)
        (.single (.exec (rfl : _ = Op.setHolder 0 :: _) rfl rfl)))), rfl⟩
  obtain ⟨s, hrun, hholder⟩ := hrun
  exact ⟨s, hholder, (run_semaphores (fun _ ↦ by decide) hrun).1 0⟩

/-- The value does not always count as a number does: it wraps. -/
theorem not_run_semaphores : ¬∀ (value : ℕ → ℕ) (history : List (ℕ × Event)) (s : State),
    (∀ x, value x < unsignedSize) → Run (Step id) (initial value) history s →
      (∀ l, Excludes history s l) ∧
        (∀ x, (s.semas (.sema x)).value + downs history (.sema x) =
          value x + ups history (.sema x)) ∧ Wakes s := by
  intro h
  have hrun : ∃ s, Run (Step id) (initial fun _ ↦ unsignedSize - 1)
      [(0, .call (.semaUp 0)), (0, .upped (.sema 0))] s ∧ (s.semas (.sema 0)).value = 0 :=
    ⟨_, .cons (.call rfl rfl trivial)
      (.single (.exec (rfl : _ = Op.semaUp (.sema 0) :: _) rfl rfl)), rfl⟩
  obtain ⟨s, hrun, hvalue⟩ := hrun
  have hcount := (h _ _ s (fun _ ↦ by decide) hrun).2.1 0
  rw [hvalue] at hcount
  exact absurd hcount (by decide)

end Jungle.Threads
