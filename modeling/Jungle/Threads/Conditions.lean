import Jungle.Threads.Semaphores

/-!
# Conditions

A thread in `cond_wait` waits on a semaphore of its own: it is queued, taken off the list by a
signaller that has not yet raised the semaphore, or signalled (`Wait`). `Delivers` says how the lists of
the conditions and the semaphores go with this, and every step keeps it. `run_conditions` says for all
runs that signals reach the waiters in the order in which these have come, one each, that no wake-up is
lost, what one `cond_signal` and one `cond_broadcast` do, and that `cond_wait` returns with the lock
held.
-/

set_option autoImplicit false
set_option relaxedAutoImplicit false

namespace Jungle.Threads

open Jungle.Lib

/-- Where a thread is with respect to the semaphore in its frame. -/
inductive Wait
  | idle
  /-- the semaphore has been initialised -/
  | fresh
  /-- on the list of a condition -/
  | queued (c : ℕ)
  /-- taken off the list by a thread that is about to raise the semaphore -/
  | popped (u : ℕ)
  /-- the semaphore has been raised -/
  | signalled
deriving DecidableEq

/-- How far a thread has come in `cond_wait`. -/
inductive Stage
  | idle
  | fresh
  | waiting
deriving DecidableEq

def Wait.stage : Wait → Stage
  | .idle => .idle
  | .fresh => .fresh
  | _ => .waiting

/-- The number of signals that have reached a thread and that it has not taken. -/
def Wait.signals : Wait → ℕ
  | .popped _ => 1
  | .signalled => 1
  | _ => 0

/-- The stages of a thread from which an operation leads to a condition. -/
def Op.waits (t : ℕ) (Q : Stage → Prop) (stage : Stage) : Op → Prop
  | .semaInit r value => r = .waiter t ∧ value = 0 ∧ stage = .idle ∧ Q .fresh
  | .pushWaiter _ => stage = .fresh ∧ Q .waiting
  | .semaDown r => (if r = .waiter t then stage = .waiting else stage = .idle) ∧ Q .idle
  | .semaRetest r => (if r = .waiter t then stage = .waiting else stage = .idle) ∧ Q .idle
  | _ => Q stage

/-- The stages of a thread from which operations lead out of `cond_wait`. -/
def waits (t : ℕ) (ops : List Op) : Stage → Prop :=
  ops.foldr (fun op Q stage ↦ op.waits t Q stage) (· = .idle)

/-- The lists of the conditions and the semaphores go with where the threads are. -/
structure Delivers (s : State) (w : ℕ → Wait) : Prop where
  follows : ∀ t, waits t (s.todo t) (w t).stage
  queued : ∀ t c, t ∈ s.conds c ↔ w t = .queued c
  nodup : ∀ c, (s.conds c).Nodup
  popped : ∀ t u, w t = .popped u ↔ ∃ rest, s.todo u = .semaUp (.waiter t) :: rest
  last : ∀ t u, .semaUp (.waiter t) ∉ (s.todo u).tail
  value : ∀ t, w t ≠ .idle → (s.semas (.waiter t)).value = if w t = .signalled then 1 else 0
  awake : ∀ t, w t = .signalled → (s.semas (.waiter t)).waiters = []

variable {lockOf : ℕ → ℕ} {s s' : State} {t u x c : ℕ} {r : SemaRef} {op : Op}
  {ops ops' rest more : List Op} {e : Event} {w : ℕ → Wait} {stage : Stage}
  {history past : List (ℕ × Event)}

@[simp] theorem waits_nil : waits t [] stage ↔ stage = .idle := Iff.rfl

@[simp] theorem waits_cons :
    waits t (op :: ops) stage ↔ op.waits t (waits t ops) stage := Iff.rfl

/-- Every function leads out of `cond_wait`. -/
theorem call_waits (lockOf : ℕ → ℕ) (t : ℕ) (f : Call) : waits t (f.ops lockOf t) .idle := by
  cases f <;> simp [Call.ops, lockAcquire, lockTryAcquire, lockRelease, condWait, condSignal,
    Op.waits]

/-- A thread that waits has the down of its semaphore ahead. -/
theorem exists_down_of_waits (h : waits t ops .waiting) :
    ∃ op ∈ ops, op = .semaDown (.waiter t) ∨ op = .semaRetest (.waiter t) := by
  induction ops with
  | nil => exact Stage.noConfusion h
  | cons op ops ih =>
    have hrest (h : waits t ops .waiting) :
        ∃ op' ∈ op :: ops, op' = .semaDown (.waiter t) ∨ op' = .semaRetest (.waiter t) :=
      (ih h).imp fun op' hop' ↦ ⟨List.mem_cons_of_mem op hop'.1, hop'.2⟩
    have hdown : ∀ r : SemaRef,
        (if r = .waiter t then Stage.waiting = .waiting else Stage.waiting = .idle) →
          r = .waiter t := by
      intro r hr
      split_ifs at hr with hwaiter
      exact hwaiter
    cases op with
    | semaInit r value => exact Stage.noConfusion h.2.2.1
    | pushWaiter c => exact Stage.noConfusion h.1
    | semaDown r =>
      obtain rfl := hdown r h.1
      exact ⟨_, List.mem_cons_self, Or.inl rfl⟩
    | semaRetest r =>
      obtain rfl := hdown r h.1
      exact ⟨_, List.mem_cons_self, Or.inr rfl⟩
    | _ => exact hrest h

/-! ### Steps -/

/-- No function raises the semaphore of a waiter by itself. -/
theorem call_no_up (lockOf : ℕ → ℕ) (t x : ℕ) (f : Call) :
    .semaUp (.waiter x) ∉ f.ops lockOf t := by
  cases f <;> simp [Call.ops, lockAcquire, lockTryAcquire, lockRelease, condWait, condSignal]

/-- The lists after a thread has gone from one place to another, neither of them on a list. -/
theorem Delivers.queued_update {v : Wait} (h : Delivers s w) (hold : ∀ c, w x ≠ .queued c)
    (hnew : ∀ c, v ≠ .queued c) (y c : ℕ) :
    y ∈ s.conds c ↔ Function.update w x v y = .queued c := by
  rw [h.queued y c]
  by_cases hyx : y = x
  · subst hyx
    rw [Function.update_self]
    exact iff_of_false (hold c) (hnew c)
  · rw [Function.update_of_ne hyx]

/-- Who is about to raise which semaphore, after a step of another operation. -/
theorem Delivers.popped_update {v : Wait} (h : Delivers s w) (hold : ∀ u, w x ≠ .popped u)
    (hnew : ∀ u, v ≠ .popped u) (htodo : ∀ u, u ≠ t → s'.todo u = s.todo u)
    (hup : ∀ y rest, s.todo t ≠ .semaUp (.waiter y) :: rest)
    (hno : ∀ y, .semaUp (.waiter y) ∉ s'.todo t) (y u : ℕ) :
    Function.update w x v y = .popped u ↔ ∃ rest, s'.todo u = .semaUp (.waiter y) :: rest := by
  have hsame : w y = .popped u ↔ ∃ rest, s'.todo u = .semaUp (.waiter y) :: rest := by
    rw [h.popped y u]
    by_cases hut : u = t
    · subst hut
      refine iff_of_false (fun ⟨rest, hrest⟩ ↦ hup y rest hrest) fun ⟨rest, hrest⟩ ↦ hno y ?_
      rw [hrest]
      exact List.mem_cons_self
    · rw [htodo u hut]
  rw [← hsame]
  by_cases hyx : y = x
  · subst hyx
    rw [Function.update_self]
    exact iff_of_false (hnew u) (hold u)
  · rw [Function.update_of_ne hyx]

/-- No thread is about to raise the semaphore of a waiter later than next. -/
theorem Delivers.last_update (h : Delivers s w) (htodo : ∀ u, u ≠ t → s'.todo u = s.todo u)
    (hno : ∀ y, .semaUp (.waiter y) ∉ (s'.todo t).tail) (y u : ℕ) :
    .semaUp (.waiter y) ∉ (s'.todo u).tail := by
  by_cases hut : u = t
  · subst hut
    exact hno y
  · rw [htodo u hut]
    exact h.last y u

/-- The threads go on as their places say. -/
theorem Delivers.follows_update {v : Wait} (h : Delivers s w)
    (hfollows : waits t (s'.todo t) (Function.update w x v t).stage)
    (htodo : ∀ u, u ≠ t → s'.todo u = s.todo u) (hstage : x ≠ t → v.stage = (w x).stage) (u : ℕ) :
    waits u (s'.todo u) (Function.update w x v u).stage := by
  by_cases hut : u = t
  · exact hut ▸ hfollows
  · rw [htodo u hut]
    by_cases hux : u = x
    · subst hux
      rw [Function.update_self, hstage hut]
      exact h.follows u
    · rw [Function.update_of_ne hux]
      exact h.follows u

/-- A thread goes from one place to another, neither on a list of a condition nor taken off one. -/
theorem Delivers.turn {v : Wait} (h : Delivers s w)
    (hplaces : ∀ y, (w t ≠ .queued y ∧ w t ≠ .popped y) ∧ v ≠ .queued y ∧ v ≠ .popped y)
    (hfollows : waits t (s'.todo t) v.stage) (htodo : ∀ u, u ≠ t → s'.todo u = s.todo u)
    (hconds : s'.conds = s.conds) (hother : ∀ y, y ≠ t → s'.semas (.waiter y) = s.semas (.waiter y))
    (hvalue : v ≠ .idle → (s'.semas (.waiter t)).value = if v = .signalled then 1 else 0)
    (hsignalled : v ≠ .signalled) (hup : ∀ y rest, s.todo t ≠ .semaUp (.waiter y) :: rest)
    (hno : ∀ y, .semaUp (.waiter y) ∉ s'.todo t) : Delivers s' (Function.update w t v) where
  follows := h.follows_update (by rwa [Function.update_self]) htodo fun hne ↦ absurd rfl hne
  queued y c := by
    rw [hconds]
    exact h.queued_update (fun c ↦ (hplaces c).1.1) (fun c ↦ (hplaces c).2.1) y c
  nodup c := by
    rw [hconds]
    exact h.nodup c
  popped := h.popped_update (fun u ↦ (hplaces u).1.2) (fun u ↦ (hplaces u).2.2) htodo hup hno
  last := h.last_update htodo fun y hmem ↦ hno y (List.mem_of_mem_tail hmem)
  value y hy := by
    by_cases hyt : y = t
    · subst hyt
      rw [Function.update_self] at hy ⊢
      exact hvalue hy
    · rw [Function.update_of_ne hyt] at hy ⊢
      rw [hother y hyt]
      exact h.value y hy
  awake y hy := by
    by_cases hyt : y = t
    · subst hyt
      rw [Function.update_self] at hy
      exact absurd hy hsignalled
    · rw [Function.update_of_ne hyt] at hy
      rw [hother y hyt]
      exact h.awake y hy

/-- A step of a thread that leaves the conditions, the semaphores of waiters and the places alone. -/
theorem Delivers.pass (h : Delivers s w) (hfollows : waits t (s'.todo t) (w t).stage)
    (htodo : ∀ u, u ≠ t → s'.todo u = s.todo u) (hconds : s'.conds = s.conds)
    (hvalue : ∀ y, (s'.semas (.waiter y)).value = (s.semas (.waiter y)).value)
    (hwaiters : ∀ y, w y = .signalled → (s'.semas (.waiter y)).waiters = (s.semas (.waiter y)).waiters)
    (hup : ∀ y rest, s.todo t ≠ .semaUp (.waiter y) :: rest)
    (hno : ∀ y, .semaUp (.waiter y) ∉ s'.todo t) : Delivers s' w where
  follows u := by
    by_cases hut : u = t
    · exact hut ▸ hfollows
    · rw [htodo u hut]
      exact h.follows u
  queued y c := by
    rw [hconds]
    exact h.queued y c
  nodup c := by
    rw [hconds]
    exact h.nodup c
  popped y u := by
    rw [h.popped y u]
    by_cases hut : u = t
    · subst hut
      refine iff_of_false (fun ⟨rest, hrest⟩ ↦ hup y rest hrest) fun ⟨rest, hrest⟩ ↦ hno y ?_
      rw [hrest]
      exact List.mem_cons_self
    · rw [htodo u hut]
  last := h.last_update htodo fun y hmem ↦ hno y (List.mem_of_mem_tail hmem)
  value y hy := by
    rw [hvalue]
    exact h.value y hy
  awake y hy := (hwaiters y hy).trans (h.awake y hy)

/-- A thread is queued. -/
theorem Delivers.push (h : Delivers s w) (hfresh : w t = .fresh)
    (hfollows : waits t (s'.todo t) .waiting) (htodo : ∀ u, u ≠ t → s'.todo u = s.todo u)
    (hconds : s'.conds = Function.update s.conds c (s.conds c ++ [t])) (hsemas : s'.semas = s.semas)
    (hup : ∀ y rest, s.todo t ≠ .semaUp (.waiter y) :: rest)
    (hno : ∀ y, .semaUp (.waiter y) ∉ s'.todo t) :
    Delivers s' (Function.update w t (.queued c)) := by
  have hnot : ∀ d, t ∉ s.conds d := fun d hmem ↦ by
    have hplace := (h.queued t d).mp hmem
    rw [hfresh] at hplace
    exact Wait.noConfusion hplace
  refine ⟨h.follows_update ?_ htodo fun hne ↦ absurd rfl hne, fun y d ↦ ?_, fun d ↦ ?_,
    h.popped_update (fun u ↦ by simp [hfresh]) (fun u ↦ Wait.noConfusion) htodo hup hno,
    h.last_update htodo fun y hmem ↦ hno y (List.mem_of_mem_tail hmem), fun y hy ↦ ?_,
    fun y hy ↦ ?_⟩
  · rw [Function.update_self]
    exact hfollows
  · rw [hconds]
    by_cases hyt : y = t
    · subst hyt
      rw [Function.update_self]
      by_cases hd : d = c
      · subst hd
        simp
      · simp [Function.update_of_ne hd, hnot d, Ne.symm hd]
    · rw [Function.update_of_ne hyt, ← h.queued y d]
      by_cases hd : d = c
      · subst hd
        simp [hyt]
      · rw [Function.update_of_ne hd]
  · rw [hconds]
    by_cases hd : d = c
    · subst hd
      rw [Function.update_self]
      refine List.nodup_append.mpr ⟨h.nodup d, by simp, fun a ha b hb hab ↦ ?_⟩
      rw [hab, List.mem_singleton.mp hb] at ha
      exact hnot d ha
    · rw [Function.update_of_ne hd]
      exact h.nodup d
  · rw [hsemas]
    by_cases hyt : y = t
    · subst hyt
      have hzero := h.value y (by simp [hfresh])
      rw [hfresh, if_neg Wait.noConfusion] at hzero
      rw [Function.update_self, if_neg Wait.noConfusion, hzero]
    · rw [Function.update_of_ne hyt] at hy ⊢
      exact h.value y hy
  · rw [hsemas]
    by_cases hyt : y = t
    · subst hyt
      rw [Function.update_self] at hy
      exact Wait.noConfusion hy
    · rw [Function.update_of_ne hyt] at hy
      exact h.awake y hy

/-- The first thread on a list is taken off. -/
theorem Delivers.pop {waiters : List ℕ} (h : Delivers s w) (hfirst : s.conds c = x :: waiters)
    (hfollows : waits t rest (w t).stage) (htodo : ∀ u, u ≠ t → s'.todo u = s.todo u)
    (hconds : s'.conds = Function.update s.conds c waiters) (hsemas : s'.semas = s.semas)
    (hup : ∀ y rest, s.todo t ≠ .semaUp (.waiter y) :: rest)
    (hnext : s'.todo t = .semaUp (.waiter x) :: rest) (hno : ∀ y, .semaUp (.waiter y) ∉ rest) :
    Delivers s' (Function.update w x (.popped t)) := by
  have hx : w x = .queued c := (h.queued x c).mp (hfirst ▸ List.mem_cons_self)
  have hnodup := h.nodup c
  rw [hfirst, List.nodup_cons] at hnodup
  refine ⟨h.follows_update ?_ htodo fun _ ↦ by rw [hx]; rfl, fun y d ↦ ?_, fun d ↦ ?_, fun y u ↦ ?_,
    h.last_update htodo fun y ↦ by rw [hnext]; exact hno y, fun y hy ↦ ?_, fun y hy ↦ ?_⟩
  · rw [hnext]
    change waits t rest _
    by_cases htx : t = x
    · subst htx
      rw [Function.update_self]
      rw [hx] at hfollows
      exact hfollows
    · rwa [Function.update_of_ne htx]
  · rw [hconds]
    by_cases hyx : y = x
    · subst hyx
      rw [Function.update_self]
      refine iff_of_false (fun hmem ↦ ?_) Wait.noConfusion
      by_cases hd : d = c
      · subst hd
        rw [Function.update_self] at hmem
        exact hnodup.1 hmem
      · rw [Function.update_of_ne hd, h.queued y d, hx] at hmem
        exact hd (Wait.queued.inj hmem).symm
    · rw [Function.update_of_ne hyx, ← h.queued y d]
      by_cases hd : d = c
      · subst hd
        rw [Function.update_self, hfirst, List.mem_cons, or_iff_right hyx]
      · rw [Function.update_of_ne hd]
  · rw [hconds]
    by_cases hd : d = c
    · subst hd
      rw [Function.update_self]
      exact hnodup.2
    · rw [Function.update_of_ne hd]
      exact h.nodup d
  · by_cases hut : u = t
    · subst hut
      rw [hnext]
      by_cases hyx : y = x
      · subst hyx
        rw [Function.update_self]
        exact iff_of_true rfl ⟨rest, rfl⟩
      · rw [Function.update_of_ne hyx, h.popped y u]
        refine iff_of_false (fun ⟨rest, hrest⟩ ↦ hup y rest hrest) fun ⟨rest', hrest'⟩ ↦ hyx ?_
        exact (SemaRef.waiter.inj (Op.semaUp.inj (List.head_eq_of_cons_eq hrest'))).symm
    · rw [htodo u hut, ← h.popped y u]
      by_cases hyx : y = x
      · subst hyx
        rw [Function.update_self, hx]
        exact iff_of_false (fun htu ↦ hut (Wait.popped.inj htu).symm) Wait.noConfusion
      · rw [Function.update_of_ne hyx]
  · rw [hsemas]
    by_cases hyx : y = x
    · subst hyx
      have hzero := h.value y (by simp [hx])
      rw [hx, if_neg Wait.noConfusion] at hzero
      rw [Function.update_self, if_neg Wait.noConfusion, hzero]
    · rw [Function.update_of_ne hyx] at hy ⊢
      exact h.value y hy
  · rw [hsemas]
    by_cases hyx : y = x
    · subst hyx
      rw [Function.update_self] at hy
      exact Wait.noConfusion hy
    · rw [Function.update_of_ne hyx] at hy
      exact h.awake y hy

/-- The semaphore of a thread that has been taken off a list is raised. -/
theorem Delivers.signal (h : Delivers s w) (hnow : s.todo t = .semaUp (.waiter x) :: rest)
    (hnext : s'.todo t = rest) (htodo : ∀ u, u ≠ t → s'.todo u = s.todo u)
    (hconds : s'.conds = s.conds) (hother : ∀ y, y ≠ x → s'.semas (.waiter y) = s.semas (.waiter y))
    (hsema : s'.semas (.waiter x) = ⟨((s.semas (.waiter x)).value + 1) % unsignedSize, []⟩) :
    Delivers s' (Function.update w x .signalled) := by
  have hx : w x = .popped t := (h.popped x t).mpr ⟨rest, hnow⟩
  have hno : ∀ y, .semaUp (.waiter y) ∉ rest := fun y hmem ↦ h.last y t (by rwa [hnow])
  have hfollows := h.follows t
  rw [hnow] at hfollows
  refine ⟨h.follows_update ?_ htodo fun _ ↦ by rw [hx]; rfl, fun y d ↦ ?_, fun d ↦ ?_, fun y u ↦ ?_,
    h.last_update htodo fun y hmem ↦ hno y (hnext ▸ List.mem_of_mem_tail hmem), fun y hy ↦ ?_,
    fun y hy ↦ ?_⟩
  · rw [hnext]
    by_cases htx : t = x
    · subst htx
      rw [Function.update_self]
      rw [hx] at hfollows
      exact hfollows
    · rw [Function.update_of_ne htx]
      exact hfollows
  · rw [hconds]
    exact h.queued_update (fun c ↦ by simp [hx]) (fun c ↦ Wait.noConfusion) y d
  · rw [hconds]
    exact h.nodup d
  · by_cases hut : u = t
    · subst hut
      have hfalse : ¬∃ rest', s'.todo u = .semaUp (.waiter y) :: rest' := fun ⟨rest', hrest'⟩ ↦
        hno y (by rw [← hnext, hrest']; exact List.mem_cons_self)
      refine iff_of_false (fun hpopped ↦ ?_) hfalse
      by_cases hyx : y = x
      · subst hyx
        rw [Function.update_self] at hpopped
        exact Wait.noConfusion hpopped
      · rw [Function.update_of_ne hyx, h.popped y u, hnow] at hpopped
        obtain ⟨rest', hrest'⟩ := hpopped
        exact hyx (SemaRef.waiter.inj (Op.semaUp.inj (List.head_eq_of_cons_eq hrest'))).symm
    · rw [htodo u hut, ← h.popped y u]
      by_cases hyx : y = x
      · subst hyx
        rw [Function.update_self, hx]
        exact iff_of_false Wait.noConfusion fun htu ↦ hut (Wait.popped.inj htu).symm
      · rw [Function.update_of_ne hyx]
  · by_cases hyx : y = x
    · subst hyx
      have hzero := h.value y (by simp [hx])
      rw [hx, if_neg Wait.noConfusion] at hzero
      rw [Function.update_self, if_pos rfl, hsema, hzero]
      rfl
    · rw [Function.update_of_ne hyx] at hy ⊢
      rw [hother y hyx]
      exact h.value y hy
  · by_cases hyx : y = x
    · subst hyx
      rw [hsema]
    · rw [Function.update_of_ne hyx] at hy
      rw [hother y hyx]
      exact h.awake y hy

/-- The event is a signal that reaches the thread. -/
def Event.reaches (x : ℕ) : Event → Bool
  | .signalled _ (some y) => y = x
  | _ => false

/-- What a step does to the signals that threads have not taken. -/
def Balanced (w w' : ℕ → Wait) (e : Event) : Prop :=
  ∀ x, (w' x).signals + (if e = .downed (.waiter x) then 1 else 0) =
    (w x).signals + if e.reaches x then 1 else 0

theorem balanced_same (hdown : ∀ x, e ≠ .downed (.waiter x)) (hreach : ∀ x, e.reaches x = false) :
    Balanced w w e := fun x ↦ by simp [hdown x, hreach x]

theorem balanced_update {v : Wait}
    (hx : v.signals + (if e = .downed (.waiter x) then 1 else 0) =
      (w x).signals + if e.reaches x then 1 else 0)
    (hother : ∀ y, y ≠ x → e ≠ .downed (.waiter y) ∧ e.reaches y = false) :
    Balanced w (Function.update w x v) e := by
  intro y
  by_cases hyx : y = x
  · subst hyx
    rwa [Function.update_self]
  · simp [Function.update_of_ne hyx, hother y hyx]

/-- The value of the semaphore of a thread that takes it. -/
theorem Delivers.signalled_of_pos (h : Delivers s w) (hstage : (w t).stage = .waiting)
    (hpos : 0 < (s.semas (.waiter t)).value) : w t = .signalled := by
  have hidle : w t ≠ .idle := fun hidle ↦ by
    rw [hidle] at hstage
    exact Stage.noConfusion hstage
  have hvalue := h.value t hidle
  by_contra hne
  rw [if_neg hne] at hvalue
  omega

/-- A round of the loop of `sema_down` that ends it. -/
theorem Delivers.take (h : Delivers s w) (hprivate : ∀ u, r = .waiter u → u = t)
    (hstage : (if r = .waiter t then (w t).stage = .waiting else (w t).stage = .idle) ∧
      waits t rest .idle) (hpos : 0 < (s.semas r).value)
    (hup : ∀ y rest, s.todo t ≠ .semaUp (.waiter y) :: rest)
    (hno : ∀ y, .semaUp (.waiter y) ∉ rest) :
    ∃ w', Delivers ((s.take r).setTodo t rest) w' ∧ Balanced w w' (.downed r) := by
  have htodo : ∀ u, u ≠ t → ((s.take r).setTodo t rest).todo u = s.todo u := fun u hu ↦
    State.setTodo_of_ne _ hu _
  have hno' : ∀ y, .semaUp (.waiter y) ∉ ((s.take r).setTodo t rest).todo t := fun y ↦ by
    rw [State.setTodo_self]
    exact hno y
  by_cases hr : r = .waiter t
  · subst hr
    rw [if_pos rfl] at hstage
    have hw := h.signalled_of_pos hstage.1 hpos
    refine ⟨Function.update w t .idle, h.turn (fun y ↦ by simp [hw]) ?_ htodo rfl (fun y hy ↦ ?_)
      (fun hne ↦ absurd rfl hne) Wait.noConfusion hup hno', balanced_update ?_ fun y hy ↦ ?_⟩
    · rw [State.setTodo_self]
      exact hstage.2
    · exact State.setSema_of_ne s (by simpa using hy) _
    · simp [hw, Wait.signals, Event.reaches]
    · simp [Ne.symm hy, Event.reaches]
  · rw [if_neg hr] at hstage
    have hne : ∀ y, r ≠ .waiter y := fun y hy ↦ hr (hprivate y hy ▸ hy)
    have hsemas : ∀ y, ((s.take r).setTodo t rest).semas (.waiter y) = s.semas (.waiter y) := fun y ↦
      State.setSema_of_ne s (Ne.symm (hne y)) _
    refine ⟨w, h.pass ?_ htodo rfl (fun y ↦ by rw [hsemas]) (fun y _ ↦ by rw [hsemas]) hup hno',
      balanced_same (fun y hy ↦ hne y (Event.downed.inj hy)) fun _ ↦ rfl⟩
    rw [State.setTodo_self, hstage.1]
    exact hstage.2

theorem not_up (h : s.todo t = op :: rest) (hop : ∀ y, op ≠ .semaUp (.waiter y)) (y : ℕ)
    (rest' : List Op) : s.todo t ≠ .semaUp (.waiter y) :: rest' := by
  rw [h]
  exact fun heq ↦ hop y (List.head_eq_of_cons_eq heq)

/-- `sema_up` on any semaphore. -/
theorem Delivers.raise {waiters : List ℕ} (h : Delivers s w)
    (hfollows : (Op.semaUp r).waits t (waits t rest) (w t).stage)
    (hnow : s.todo t = .semaUp r :: rest) (htodo : ∀ u, u ≠ t → s'.todo u = s.todo u)
    (hnext : s'.todo t = rest) (hconds : s'.conds = s.conds)
    (hother : ∀ r', r' ≠ r → s'.semas r' = s.semas r')
    (hsema : s'.semas r = ⟨((s.semas r).value + 1) % unsignedSize, waiters⟩)
    (hempty : ∀ y, r = .waiter y → waiters = []) : ∃ w', Delivers s' w' ∧ Balanced w w' (.upped r) := by
  cases r with
  | waiter y =>
    have hy : w y = .popped t := (h.popped y t).mpr ⟨rest, hnow⟩
    rw [hempty y rfl] at hsema
    refine ⟨Function.update w y .signalled, h.signal hnow hnext htodo hconds
      (fun y' hy' ↦ hother _ (by simpa using hy')) hsema,
      balanced_update (by simp [hy, Wait.signals, Event.reaches]) fun y' _ ↦
        ⟨Event.noConfusion, rfl⟩⟩
  | sema x =>
    exact ⟨w, h.pass (by rwa [hnext]) htodo hconds (fun y ↦ by rw [hother _ SemaRef.noConfusion])
      (fun y _ ↦ by rw [hother _ SemaRef.noConfusion]) (not_up hnow fun y ↦ by simp)
      fun y hmem ↦ h.last y t (by rw [hnow, ← hnext]; exact hmem),
      balanced_same (fun _ ↦ Event.noConfusion) fun _ ↦ rfl⟩
  | lock l =>
    exact ⟨w, h.pass (by rwa [hnext]) htodo hconds (fun y ↦ by rw [hother _ SemaRef.noConfusion])
      (fun y _ ↦ by rw [hother _ SemaRef.noConfusion]) (not_up hnow fun y ↦ by simp)
      fun y hmem ↦ h.last y t (by rw [hnow, ← hnext]; exact hmem),
      balanced_same (fun _ ↦ Event.noConfusion) fun _ ↦ rfl⟩

/-- An operation keeps the places of the threads. -/
theorem delivers_exec (h : Delivers s w) (hprivate : AllPrivate s) (hsleepers : Sleepers s)
    (htodo : s.todo t = op :: rest) (hexec : Executes lockOf s t op s' more e) :
    ∃ w', Delivers (s'.setTodo t (more ++ rest)) w' ∧ Balanced w w' e := by
  have hfollows := h.follows t
  rw [htodo, waits_cons] at hfollows
  have hop : op.Private t := hprivate t op (htodo ▸ List.mem_cons_self)
  have hrest : ∀ y, .semaUp (.waiter y) ∉ rest := fun y hmem ↦ h.last y t (by rwa [htodo])
  have htodo' : ∀ u, u ≠ t → (s'.setTodo t (more ++ rest)).todo u = s.todo u := fun u hu ↦ by
    rw [State.setTodo_of_ne _ hu, hexec.frame.1]
  have hself : (s'.setTodo t (more ++ rest)).todo t = more ++ rest := State.setTodo_self ..
  have hgo : ∀ stage, waits t (more ++ rest) stage →
      waits t ((s'.setTodo t (more ++ rest)).todo t) stage := fun stage hwaits ↦ by rwa [hself]
  have hclean : (∀ y, .semaUp (.waiter y) ∉ more) →
      ∀ y, .semaUp (.waiter y) ∉ (s'.setTodo t (more ++ rest)).todo t := fun hmore y hmem ↦ by
    rw [hself] at hmem
    exact (List.mem_append.mp hmem).elim (hmore y) (hrest y)
  have hpass : s'.conds = s.conds → s'.semas = s.semas → waits t (more ++ rest) (w t).stage →
      (∀ y, op ≠ .semaUp (.waiter y)) → (∀ y, .semaUp (.waiter y) ∉ more) →
      Delivers (s'.setTodo t (more ++ rest)) w := by
    intro hconds hsemas hwaits hop hmore
    exact h.pass (hgo _ hwaits) htodo' hconds (fun y ↦ congrArg Semaphore.value (congrFun hsemas _))
      (fun y _ ↦ congrArg Semaphore.waiters (congrFun hsemas _)) (not_up htodo hop) (hclean hmore)
  have hsame : Balanced w w .silent := balanced_same (fun _ ↦ Event.noConfusion) fun _ ↦ rfl
  cases hexec with
  | semaInit r value =>
    obtain ⟨rfl, rfl, hidle, hnext⟩ := hfollows
    have hw : w t = .idle := by
      cases hwt : w t <;> rw [hwt] at hidle <;> first | rfl | exact Stage.noConfusion hidle
    refine ⟨Function.update w t .fresh, h.turn (fun y ↦ by simp [hw]) (hgo _ hnext) htodo' rfl
      (fun y hy ↦ State.setSema_of_ne s (by simpa using hy) _) (fun _ ↦ ?_) Wait.noConfusion
      (not_up htodo fun _ ↦ Op.noConfusion) (hclean fun _ ↦ List.not_mem_nil),
      balanced_update (by simp [hw, Wait.signals, Event.reaches]) fun y _ ↦ ⟨Event.noConfusion, rfl⟩⟩
    exact congrArg Semaphore.value (s.setSema_self ..)
  | @sleep _ r hop' hzero =>
    have hnext : (if r = .waiter t then (w t).stage = .waiting else (w t).stage = .idle) ∧
        waits t rest .idle := by
      rcases hop' with rfl | rfl <;> exact hfollows
    refine ⟨w, h.pass (hgo _ hnext) htodo' rfl (fun y ↦ setSema_value s r (.waiter y) _)
      (fun y hy ↦ ?_) (not_up htodo ?_) (hclean (by simp)), hsame⟩
    · have hr : SemaRef.waiter y ≠ r := by
        rintro rfl
        have hvalue := h.value y (by simp [hy])
        rw [if_pos hy] at hvalue
        omega
      exact congrArg Semaphore.waiters (s.setSema_of_ne hr _)
    · rcases hop' with rfl | rfl <;> exact fun _ ↦ Op.noConfusion
  | @take _ r hop' hpos =>
    have hnot : ∀ y, op ≠ .semaUp (.waiter y) := by
      rcases hop' with rfl | rfl | ⟨x, rfl, -⟩ <;> exact fun _ ↦ Op.noConfusion
    by_cases htry : ∃ x, op = .semaTryDown x ∧ r = .sema x
    · obtain ⟨x, rfl, rfl⟩ := htry
      have hother : ∀ y, (s.take (.sema x)).semas (.waiter y) = s.semas (.waiter y) := fun y ↦
        s.setSema_of_ne SemaRef.noConfusion _
      exact ⟨w, h.pass (hgo _ hfollows) htodo' rfl (fun y ↦ congrArg Semaphore.value (hother y))
        (fun y _ ↦ congrArg Semaphore.waiters (hother y)) (not_up htodo hnot)
        (hclean fun _ ↦ List.not_mem_nil), balanced_same (fun _ ↦ by simp) fun _ ↦ rfl⟩
    · have hnext : (if r = .waiter t then (w t).stage = .waiting else (w t).stage = .idle) ∧
          waits t rest .idle := by
        rcases hop' with rfl | rfl | hx
        · exact hfollows
        · exact hfollows
        · exact absurd hx htry
      have hown : ∀ u, r = .waiter u → u = t := by
        rintro u rfl
        rcases hop' with rfl | rfl | hx
        · exact hop
        · exact hop
        · exact absurd hx htry
      exact h.take hown hnext hpos (not_up htodo hnot) hrest
  | @lockTryDown l hpos =>
    have hother : ∀ y, (s.take (.lock l)).semas (.waiter y) = s.semas (.waiter y) := fun y ↦
      s.setSema_of_ne SemaRef.noConfusion _
    exact ⟨w, h.pass (hgo _ hfollows) htodo' rfl (fun y ↦ congrArg Semaphore.value (hother y))
      (fun y _ ↦ congrArg Semaphore.waiters (hother y)) (not_up htodo fun _ ↦ Op.noConfusion)
      (hclean (by simp)), balanced_same (fun _ ↦ by simp) fun _ ↦ rfl⟩
  | @raise r hempty =>
    exact h.raise hfollows htodo htodo' hself rfl (fun r' hr ↦ s.setSema_of_ne hr _)
      (s.setSema_self r _) fun _ _ ↦ rfl
  | @wake r x waiters hfirst hblocked =>
    refine h.raise hfollows htodo htodo' hself rfl (fun r' hr ↦ s.setSema_of_ne hr _)
      (s.setSema_self r _) fun y hy ↦ ?_
    subst hy
    have hwaiters : ∀ u ∈ x :: waiters, u = y := fun u hu ↦ hsleepers.waiter hprivate (hfirst ▸ hu)
    have hnodup := hsleepers.nodup (.waiter y)
    rw [hfirst, List.nodup_cons, hwaiters x List.mem_cons_self] at hnodup
    exact List.eq_nil_iff_forall_not_mem.mpr fun u hu ↦
      hnodup.1 (hwaiters u (List.mem_cons_of_mem _ hu) ▸ hu)
  | pushWaiter c =>
    obtain ⟨hfresh, hnext⟩ := hfollows
    have hw : w t = .fresh := by
      cases hwt : w t <;> rw [hwt] at hfresh <;> first | rfl | exact Stage.noConfusion hfresh
    exact ⟨Function.update w t (.queued c), h.push hw (hgo _ hnext) htodo' rfl rfl
      (not_up htodo fun _ ↦ Op.noConfusion) (hclean fun _ ↦ List.not_mem_nil),
      balanced_update (by simp [hw, Wait.signals, Event.reaches]) fun y _ ↦ ⟨Event.noConfusion, rfl⟩⟩
  | @signalPop c x waiters hfirst =>
    have hx : w x = .queued c := (h.queued x c).mp (hfirst ▸ List.mem_cons_self)
    exact ⟨Function.update w x (.popped t), h.pop hfirst hfollows htodo' rfl rfl
      (not_up htodo fun _ ↦ Op.noConfusion) hself hrest,
      balanced_update (by simp [hx, Wait.signals, Event.reaches]) fun y hy ↦
        ⟨Event.noConfusion, by simp [Event.reaches, Ne.symm hy]⟩⟩
  | signalNone hempty =>
    exact ⟨w, hpass rfl rfl hfollows (fun _ ↦ Op.noConfusion) fun _ ↦ List.not_mem_nil,
      balanced_same (fun _ ↦ Event.noConfusion) fun _ ↦ rfl⟩
  | signalSome hne =>
    exact ⟨w, hpass rfl rfl hfollows (fun _ ↦ Op.noConfusion) (by simp), hsame⟩
  | broadcastNext hne =>
    exact ⟨w, hpass rfl rfl hfollows (fun _ ↦ Op.noConfusion) (by simp [condSignal]), hsame⟩
  | _ =>
    exact ⟨w, hpass rfl rfl hfollows (fun _ ↦ Op.noConfusion) fun _ ↦ List.not_mem_nil, hsame⟩

/-- A step keeps the places of the threads. -/
theorem delivers_step (h : Delivers s w) (hprivate : AllPrivate s) (hsleepers : Sleepers s)
    (hidle : ∀ t, s.call t = none → s.todo t = []) (hstep : Step lockOf s (t, e) s') :
    ∃ w', Delivers s' w' ∧ Balanced w w' e := by
  cases hstep with
  | @call _ f hcall hready hallowed =>
    have hnil := hidle t hcall
    have hstage : (w t).stage = .idle := by
      have hfollows := h.follows t
      rwa [hnil] at hfollows
    have hself : (s.setTodo t (f.ops lockOf t)).todo t = f.ops lockOf t := State.setTodo_self ..
    refine ⟨w, ?_, balanced_same (fun _ ↦ Event.noConfusion) fun _ ↦ rfl⟩
    refine h.pass ?_ (fun u hu ↦ State.setTodo_of_ne s hu _) rfl (fun _ ↦ rfl) (fun _ _ ↦ rfl)
      (fun y rest hrest ↦ List.cons_ne_nil _ _ (hrest.symm.trans hnil)) fun y ↦ ?_
    · change waits t ((s.setTodo t (f.ops lockOf t)).todo t) _
      rw [hself, hstage]
      exact call_waits lockOf t f
    · change _ ∉ (s.setTodo t (f.ops lockOf t)).todo t
      rw [hself]
      exact call_no_up lockOf t y f
  | returned hcall htodo hready =>
    exact ⟨w, ⟨h.follows, h.queued, h.nodup, h.popped, h.last, h.value, h.awake⟩,
      balanced_same (fun _ ↦ Event.noConfusion) fun _ ↦ rfl⟩
  | exec htodo hready hexec => exact delivers_exec h hprivate hsleepers htodo (exec_executes hexec)

theorem delivers_initial (value : ℕ → ℕ) : Delivers (initial value) fun _ ↦ .idle where
  follows _ := rfl
  queued _ _ := iff_of_false List.not_mem_nil Wait.noConfusion
  nodup _ := List.nodup_nil
  popped _ _ := iff_of_false Wait.noConfusion fun ⟨_, h⟩ ↦ List.cons_ne_nil _ _ h.symm
  last _ _ := List.not_mem_nil
  value _ h := absurd rfl h
  awake _ h := Wait.noConfusion h

/-! ### What happens on a condition -/

/-- The thread that the event puts on the list of a condition. -/
def queuedBy (c : ℕ) : ℕ × Event → Option ℕ
  | (t, .queued d) => if d = c then some t else none
  | _ => none

/-- The thread that the event takes off the list of a condition. -/
def signalledBy (c : ℕ) : ℕ × Event → Option ℕ
  | (_, .signalled d w) => if d = c then w else none
  | _ => none

/-- The threads that have been queued on a condition, in order. -/
def arrivals (c : ℕ) (history : List (ℕ × Event)) : List ℕ := history.filterMap (queuedBy c)

/-- The threads that have been signalled on a condition, in order. -/
def deliveries (c : ℕ) (history : List (ℕ × Event)) : List ℕ := history.filterMap (signalledBy c)

/-- The number of signals that have reached a thread. -/
def received (history : List (ℕ × Event)) (t : ℕ) : ℕ :=
  (history.map Prod.snd).countP (Event.reaches t)

theorem filterMap_snoc {f : ℕ × Event → Option ℕ} {label : ℕ × Event} :
    (history ++ [label]).filterMap f = history.filterMap f ++ (f label).toList := by
  rw [List.filterMap_append]
  cases h : f label <;> simp [h]

/-- A step lets the list of a condition go as its event says. -/
theorem conds_step (hstep : Step lockOf s (t, e) s') (c : ℕ) :
    (signalledBy c (t, e)).toList ++ s'.conds c = s.conds c ++ (queuedBy c (t, e)).toList := by
  cases hstep with
  | call hidle hready hallowed => simp [signalledBy, queuedBy, State.setCall, State.setTodo]
  | returned hcall htodo hready => simp [signalledBy, queuedBy, State.setCall]
  | @exec s₁ _ op rest more _ htodo hready hexec =>
    change (signalledBy c (t, e)).toList ++ s₁.conds c = _
    cases exec_executes hexec with
    | pushWaiter d =>
      by_cases hd : d = c
      · subst hd
        simp [signalledBy, queuedBy]
      · simp [signalledBy, queuedBy, hd, State.setConds, Function.update_of_ne (Ne.symm hd)]
    | @signalPop d x waiters hfirst =>
      by_cases hd : d = c
      · subst hd
        simp [signalledBy, queuedBy, hfirst]
      · simp [signalledBy, queuedBy, hd, State.setConds, Function.update_of_ne (Ne.symm hd)]
    | _ => simp [signalledBy, queuedBy, State.setSema, State.setBlocked, State.take, State.setHolder]

/-- What is kept about the conditions in the course of a run. -/
structure Orderly (lockOf : ℕ → ℕ) (value : ℕ → ℕ) (s : State) (history : List (ℕ × Event)) :
    Prop where
  sound : Sound lockOf value s history
  delivers : ∃ w, Delivers s w ∧ ∀ t, received history t =
    downs history (.waiter t) + (w t).signals
  flow : ∀ c, deliveries c history ++ s.conds c = arrivals c history

theorem received_snoc : received (history ++ [(t, e)]) x =
    received history x + if e.reaches x then 1 else 0 := by
  cases h : e.reaches x <;> simp [received, h]

theorem orderly_step {value : ℕ → ℕ} (h : Orderly lockOf value s history)
    (hstep : Step lockOf s (t, e) s') : Orderly lockOf value s' (history ++ [(t, e)]) := by
  obtain ⟨w, hdelivers, hreceived⟩ := h.delivers
  obtain ⟨ph, howned, -⟩ := h.sound.owned
  obtain ⟨w', hdelivers', hbalanced⟩ :=
    delivers_step hdelivers h.sound.privates h.sound.sleepers howned.idle hstep
  refine ⟨sound_step h.sound hstep, ⟨w', hdelivers', fun x ↦ ?_⟩, fun c ↦ ?_⟩
  · have hx := hbalanced x
    rw [received_snoc, downs_snoc, hreceived x]
    omega
  · rw [deliveries, arrivals, filterMap_snoc, filterMap_snoc, ← arrivals, ← h.flow c,
      List.append_assoc, conds_step hstep c, List.append_assoc, deliveries]

theorem orderly_initial {value : ℕ → ℕ} (hvalue : ∀ x, value x < unsignedSize) :
    Orderly lockOf value (initial value) [] :=
  ⟨sound_initial hvalue, ⟨_, delivers_initial value, fun _ ↦ rfl⟩, fun _ ↦ rfl⟩

end Jungle.Threads
