import Jungle.Threads.Conditions

/-!
# What one signal does

While a thread is in `cond_signal` or `cond_broadcast` it holds the lock, so that nobody else touches
the list of the condition. `Span` follows such a call from its beginning to its end, through the steps
of all threads; `run_conditions` puts together what holds of the conditions in all runs.
-/

set_option autoImplicit false
set_option relaxedAutoImplicit false

namespace Jungle.Threads

open Jungle.Lib

/-- The thread is about to raise the semaphore. -/
def Raises (s : State) (u : ℕ) (r : SemaRef) : Prop := ∃ rest, s.todo u = .semaUp r :: rest

/-- In `cond_signal`: what is left to do, the threads that the call has taken off the list and those
that are on it. -/
inductive Spot (c l : ℕ) : List Op → List ℕ → List ℕ → Prop
  | start (waiters : List ℕ) : Spot c l [.assertHeld l, .signalTest c] [] waiters
  | test (waiters : List ℕ) : Spot c l [.signalTest c] [] waiters
  | pop {waiters : List ℕ} (hne : waiters ≠ []) : Spot c l [.signalPop c] [] waiters
  | up (x : ℕ) (waiters : List ℕ) : Spot c l [.semaUp (.waiter x)] [x] waiters
  | done (x : ℕ) (waiters : List ℕ) : Spot c l [] [x] waiters
  | nobody : Spot c l [] [] []

/-- A step of a thread in `cond_signal` or `cond_broadcast`. -/
structure Advances (c u : ℕ) (s s' : State) (e : Event) : Prop where
  holder : s'.holder = s.holder
  call : s'.call = s.call
  quiet : queuedBy c (u, e) = none
  ups : ∀ r, e = .upped r ∨ Raises s' u r ↔
    Raises s u r ∨ ∃ x, signalledBy c (u, e) = some x ∧ r = .waiter x

/-- What is known while a thread is in a call on a condition with the lock held: nobody is queued, the
list loses its threads from the front, and their semaphores are raised. -/
structure Span (lockOf : ℕ → ℕ) (c u : ℕ) (f : Call) (waiters : List ℕ) (s : State)
    (past : List (ℕ × Event)) : Prop where
  call : s.call u = some f
  holder : s.holder (lockOf c) = some u
  flow : deliveries c past ++ s.conds c = waiters
  quiet : arrivals c past = []
  ups : ∀ r, (u, .upped r) ∈ past ∨ Raises s u r ↔ ∃ x ∈ deliveries c past, r = .waiter x

variable {lockOf : ℕ → ℕ} {s s' : State} {t u x c l : ℕ} {r : SemaRef} {op : Op} {f : Call}
  {ops ops' rest more tail : List Op} {e : Event} {ph : ℕ → ℕ → Phase} {waiters called : List ℕ}
  {history past : List (ℕ × Event)} {value : ℕ → ℕ}

/-- No other thread touches the condition. -/
theorem other_step (howned : Owned lockOf s ph) (hholder : s.holder (lockOf c) = some u)
    (htu : t ≠ u) (hstep : Step lockOf s (t, e) s') :
    s'.holder (lockOf c) = some u ∧ s'.todo u = s.todo u ∧ s'.call u = s.call u ∧
      s'.conds c = s.conds c ∧ queuedBy c (t, e) = none ∧ signalledBy c (t, e) = none := by
  have hheld : ph u (lockOf c) = .held := ((howned.locks _).holder u).mp hholder
  have hnot : ph t (lockOf c) = .out := by
    by_contra hne
    exact htu ((howned.locks _).unique hne (by simp [hheld]))
  cases hstep with
  | call hidle hready hallowed =>
    exact ⟨hholder, State.setTodo_of_ne s htu.symm _, State.setCall_of_ne _ htu.symm _, rfl, rfl, rfl⟩
  | returned hcall htodo hready => exact ⟨hholder, rfl, State.setCall_of_ne _ htu.symm _, rfl, rfl, rfl⟩
  | @exec s₁ _ op rest more _ htodo hready hexec =>
    have hfollows := howned.follows t
    rw [htodo, wp_cons] at hfollows
    have hexecutes := exec_executes hexec
    obtain ⟨htodos, hcalls⟩ := hexecutes.frame
    have htodo' : (s₁.setTodo t (more ++ rest)).todo u = s.todo u := by
      rw [State.setTodo_of_ne _ htu.symm, htodos]
    suffices h : s₁.holder (lockOf c) = some u ∧ s₁.conds c = s.conds c ∧
        queuedBy c (t, e) = none ∧ signalledBy c (t, e) = none from
      ⟨h.1, htodo', congrFun hcalls u, h.2⟩
    have hcond : ∀ d, ph t (lockOf d) = .held → d ≠ c := by
      rintro d hd rfl
      rw [hnot] at hd
      exact Phase.noConfusion hd
    cases hexecutes with
    | setHolder k =>
      have hk : lockOf c ≠ k := by
        rintro rfl
        exact Phase.noConfusion (hnot.symm.trans hfollows.1)
      exact ⟨(Function.update_of_ne hk ..).trans hholder, rfl, rfl, rfl⟩
    | clearHolder k =>
      have hk : lockOf c ≠ k := by
        rintro rfl
        exact Phase.noConfusion (hnot.symm.trans hfollows.1)
      exact ⟨(Function.update_of_ne hk ..).trans hholder, rfl, rfl, rfl⟩
    | pushWaiter d =>
      have hd := hcond d hfollows.1
      exact ⟨hholder, Function.update_of_ne hd.symm .., if_neg hd, rfl⟩
    | @signalPop d x waiters hfirst =>
      have hd := hcond d hfollows.1
      exact ⟨hholder, Function.update_of_ne hd.symm .., rfl, if_neg hd⟩
    | @signalNone d hempty =>
      have hd := hcond d hfollows.1
      exact ⟨hholder, rfl, rfl, if_neg hd⟩
    | _ => exact ⟨hholder, rfl, rfl, rfl⟩

/-- A step of another thread. -/
theorem Span.other (h : Span lockOf c u f waiters s past) (howned : Owned lockOf s ph)
    (htu : t ≠ u) (hstep : Step lockOf s (t, e) s') :
    Span lockOf c u f waiters s' (past ++ [(t, e)]) ∧ s'.todo u = s.todo u ∧
      deliveries c (past ++ [(t, e)]) = deliveries c past ∧ s'.conds c = s.conds c := by
  obtain ⟨hholder, htodo, hcall, hconds, hqueued, hsignalled⟩ := other_step howned h.holder htu hstep
  have hdeliveries : deliveries c (past ++ [(t, e)]) = deliveries c past := by
    rw [deliveries, filterMap_snoc, hsignalled, Option.toList_none, List.append_nil, deliveries]
  refine ⟨⟨hcall.trans h.call, hholder, ?_, ?_, fun r ↦ ?_⟩, htodo, hdeliveries, hconds⟩
  · rw [hdeliveries, hconds]
    exact h.flow
  · rw [arrivals, filterMap_snoc, hqueued, Option.toList_none, List.append_nil]
    exact h.quiet
  · have hne : (u, Event.upped r) ≠ (t, e) := fun heq ↦ htu (congrArg Prod.fst heq).symm
    rw [hdeliveries, ← h.ups r, List.mem_append, List.mem_singleton, or_iff_left hne, Raises, htodo,
      Raises]

/-- A step of the thread itself. -/
theorem Span.own (h : Span lockOf c u f waiters s past) (hadvances : Advances c u s s' e)
    (hstep : Step lockOf s (u, e) s') : Span lockOf c u f waiters s' (past ++ [(u, e)]) ∧
      deliveries c (past ++ [(u, e)]) = deliveries c past ++ (signalledBy c (u, e)).toList := by
  have hdeliveries : deliveries c (past ++ [(u, e)]) =
      deliveries c past ++ (signalledBy c (u, e)).toList := by
    rw [deliveries, filterMap_snoc, deliveries]
  have hconds := conds_step hstep c
  rw [hadvances.quiet, Option.toList_none, List.append_nil] at hconds
  refine ⟨⟨(congrFun hadvances.call u).trans h.call, (congrFun hadvances.holder _).trans h.holder,
    ?_, ?_, fun r ↦ ?_⟩, hdeliveries⟩
  · rw [hdeliveries, List.append_assoc, hconds]
    exact h.flow
  · rw [arrivals, filterMap_snoc, hadvances.quiet, Option.toList_none, List.append_nil]
    exact h.quiet
  · have hups := hadvances.ups r
    have hold := h.ups r
    have hmem : (u, Event.upped r) ∈ past ++ [(u, e)] ↔ (u, Event.upped r) ∈ past ∨ e = .upped r := by
      rw [List.mem_append, List.mem_singleton, Prod.mk.injEq, eq_self_iff_true, true_and,
        eq_comm (a := Event.upped r)]
    rw [hmem, or_assoc, hups, ← or_assoc, hold, hdeliveries]
    constructor
    · rintro (⟨x, hx, rfl⟩ | ⟨x, hx, rfl⟩)
      · exact ⟨x, List.mem_append_left _ hx, rfl⟩
      · exact ⟨x, List.mem_append_right _ (by simp [hx]), rfl⟩
    · rintro ⟨x, hx, rfl⟩
      rcases List.mem_append.mp hx with hx | hx
      · exact Or.inl ⟨x, hx, rfl⟩
      · exact Or.inr ⟨x, Option.mem_toList.mp hx, rfl⟩

/-- What is left to a thread in a call is what it goes on with. -/
theorem exec_of_step (hcall : s.call u = some f) (htodo : s.todo u = op :: rest)
    (hstep : Step lockOf s (u, e) s') : ∃ s₁ more, Executes lockOf s u op s₁ more e ∧
      s' = s₁.setTodo u (more ++ rest) := by
  cases hstep with
  | call hidle hready hallowed =>
    rw [hcall] at hidle
    exact absurd hidle (Option.some_ne_none f)
  | returned hcall' htodo' hready =>
    rw [htodo] at htodo'
    exact absurd htodo' (List.cons_ne_nil _ _)
  | @exec s₁ _ op' rest' more _ htodo' hready hexec =>
    rw [htodo] at htodo'
    cases htodo'
    exact ⟨s₁, more, exec_executes hexec, rfl⟩

/-- An operation that raises no semaphore and signals nobody. -/
theorem advances_silent {s₁ : State} (htodo : s.todo u = op :: rest)
    (hholder : s₁.holder = s.holder) (hcall : s₁.call = s.call) (hquiet : queuedBy c (u, e) = none)
    (hup : ∀ r, e ≠ .upped r) (hnot : ∀ r, op ≠ .semaUp r)
    (hsignalled : signalledBy c (u, e) = none) (hnext : ∀ r rest', more ++ rest ≠ .semaUp r :: rest') :
    Advances c u s (s₁.setTodo u (more ++ rest)) e := by
  refine ⟨hholder, hcall, hquiet, fun r ↦ ?_⟩
  have hnow : ¬Raises s u r := by
    rintro ⟨rest', hrest'⟩
    rw [htodo] at hrest'
    exact hnot r (List.head_eq_of_cons_eq hrest')
  have hthen : ¬Raises (s₁.setTodo u (more ++ rest)) u r := by
    rintro ⟨rest', hrest'⟩
    rw [State.setTodo_self] at hrest'
    exact hnext r rest' hrest'
  rw [hsignalled]
  exact iff_of_false (not_or.mpr ⟨hup r, hthen⟩) (not_or.mpr ⟨hnow, fun ⟨x, hx, _⟩ ↦
    Option.some_ne_none x hx.symm⟩)

/-- A step in `cond_signal`. -/
theorem spot_step (hspot : Spot c l ops called waiters) (hwaiters : s.conds c = waiters)
    (hne : ops ≠ [])
    (htail : ∀ r rest, tail ≠ .semaUp r :: rest) (hcall : s.call u = some f)
    (htodo : s.todo u = ops ++ tail) (hstep : Step lockOf s (u, e) s') :
    Advances c u s s' e ∧ ∃ ops', s'.todo u = ops' ++ tail ∧
      Spot c l ops' (called ++ (signalledBy c (u, e)).toList) (s'.conds c) := by
  cases hspot with
  | start =>
    obtain ⟨s₁, more, hexec, rfl⟩ := exec_of_step hcall htodo hstep
    cases hexec with
    | sleep hop hzero => simp at hop
    | take hop hpos => simp at hop
    | assertHeld hholder =>
      subst hwaiters
      exact ⟨advances_silent htodo rfl rfl rfl (fun _ ↦ Event.noConfusion) (fun _ ↦ Op.noConfusion) rfl
        (by simp), [.signalTest c], State.setTodo_self .., .test _⟩
  | test =>
    obtain ⟨s₁, more, hexec, rfl⟩ := exec_of_step hcall htodo hstep
    cases hexec with
    | sleep hop hzero => simp at hop
    | take hop hpos => simp at hop
    | signalNone hempty =>
      have hsignalled : signalledBy c (u, .signalled c none) = none := if_pos rfl
      refine ⟨advances_silent htodo rfl rfl rfl (fun _ ↦ Event.noConfusion) (fun _ ↦ Op.noConfusion)
        hsignalled htail, [], State.setTodo_self .., ?_⟩
      rw [hsignalled]
      change Spot c l [] [] (s.conds c)
      rw [hempty]
      exact .nobody
    | signalSome hne' =>
      subst hwaiters
      exact ⟨advances_silent htodo rfl rfl rfl (fun _ ↦ Event.noConfusion) (fun _ ↦ Op.noConfusion) rfl
        (by simp), [.signalPop c], State.setTodo_self .., .pop hne'⟩
  | pop hne' =>
    obtain ⟨s₁, more, hexec, rfl⟩ := exec_of_step hcall htodo hstep
    cases hexec with
    | sleep hop hzero => simp at hop
    | take hop hpos => simp at hop
    | @signalPop _ x left hfirst =>
      have hsignalled : signalledBy c (u, .signalled c (some x)) = some x := if_pos rfl
      refine ⟨⟨rfl, rfl, rfl, fun r ↦ ?_⟩, [.semaUp (.waiter x)], State.setTodo_self .., ?_⟩
      · have hnow : ¬Raises s u r := by
          rintro ⟨rest', hrest'⟩
          rw [htodo] at hrest'
          exact Op.noConfusion (List.head_eq_of_cons_eq hrest')
        rw [hsignalled, or_iff_right Event.noConfusion, or_iff_right hnow]
        constructor
        · rintro ⟨rest', hrest'⟩
          rw [State.setTodo_self] at hrest'
          exact ⟨x, rfl, (Op.semaUp.inj (List.head_eq_of_cons_eq hrest')).symm⟩
        · rintro ⟨y, hy, rfl⟩
          obtain rfl := Option.some.inj hy
          exact ⟨tail, State.setTodo_self ..⟩
      · rw [hsignalled]
        exact .up x _
  | up x =>
    obtain ⟨s₁, more, hexec, rfl⟩ := exec_of_step hcall htodo hstep
    have hups : ∀ r (s₁ : State), Event.upped (.waiter x) = .upped r ∨
        Raises (s₁.setTodo u tail) u r ↔ Raises s u r ∨
          ∃ y, signalledBy c (u, .upped (.waiter x)) = some y ∧ r = .waiter y := by
      intro r s₁
      have hthen : ¬Raises (s₁.setTodo u tail) u r := by
        rintro ⟨rest', hrest'⟩
        rw [State.setTodo_self] at hrest'
        exact htail r rest' hrest'
      rw [or_iff_left hthen, or_iff_left fun ⟨y, hy, _⟩ ↦ Option.some_ne_none y hy.symm]
      constructor
      · intro heq
        exact ⟨tail, by rw [htodo, ← Event.upped.inj heq]; rfl⟩
      · rintro ⟨rest', hrest'⟩
        rw [htodo] at hrest'
        exact congrArg Event.upped (Op.semaUp.inj (List.head_eq_of_cons_eq hrest'))
    cases hexec with
    | sleep hop hzero => simp at hop
    | take hop hpos => simp at hop
    | raise hempty =>
      exact ⟨⟨rfl, rfl, rfl, fun r ↦ hups r _⟩, [], State.setTodo_self .., .done x _⟩
    | wake hfirst hblocked =>
      exact ⟨⟨rfl, rfl, rfl, fun r ↦ hups r _⟩, [], State.setTodo_self .., .done x _⟩
  | done => exact absurd rfl hne
  | nobody => exact absurd rfl hne

/-! ### Whole calls -/

/-- What a call on a condition has done in its course: it has woken the first threads on the list, and
no thread has been queued. -/
structure HasWoken (c u : ℕ) (waiters woken : List ℕ) (s : State) (past : List (ℕ × Event)) :
    Prop where
  deliveries : deliveries c past = woken
  conds : woken ++ s.conds c = waiters
  quiet : arrivals c past = []
  ups : ∀ r, (u, .upped r) ∈ past ↔ ∃ x ∈ woken, r = .waiter x

theorem Span.hasWoken (h : Span lockOf c u f waiters s past) (htodo : s.todo u = []) :
    HasWoken c u waiters (deliveries c past) s past := by
  refine ⟨rfl, h.flow, h.quiet, fun r ↦ ?_⟩
  have hnot : ¬Raises s u r := by
    rintro ⟨rest, hrest⟩
    rw [htodo] at hrest
    exact List.cons_ne_nil _ _ hrest.symm
  rw [← h.ups r, or_iff_left hnot]

/-- The beginning of a call. -/
theorem Span.begin (hstep : Step lockOf s (u, .call f) s')
    (hcond : f = .condSignal c ∨ f = .condBroadcast c) :
    Span lockOf c u f (s.conds c) s' [] ∧ s'.todo u = f.ops lockOf u := by
  cases hstep with
  | call hidle hready hallowed =>
    have hself : (s.setTodo u (f.ops lockOf u)).todo u = f.ops lockOf u := State.setTodo_self ..
    have hholder : s.holder (lockOf c) = some u := by
      rcases hcond with rfl | rfl <;> exact hallowed
    refine ⟨⟨State.setCall_self .., hholder, rfl, rfl, fun r ↦ ?_⟩, hself⟩
    refine iff_of_false (not_or.mpr ⟨List.not_mem_nil, ?_⟩) fun ⟨x, hx, _⟩ ↦ List.not_mem_nil hx
    rintro ⟨rest, hrest⟩
    have hops := hself.symm.trans hrest
    rcases hcond with rfl | rfl <;> exact Op.noConfusion (List.head_eq_of_cons_eq hops)
  | exec htodo hready hexec => exact absurd (exec_executes hexec) (by rintro ⟨⟩)

/-- A thread that has nothing left to do in a call returns. -/
theorem event_of_done (hcall : s.call u = some f) (htodo : s.todo u = [])
    (hstep : Step lockOf s (u, e) s') : e = .returned f := by
  cases hstep with
  | call hidle hready hallowed =>
    rw [hcall] at hidle
    exact absurd hidle (Option.some_ne_none f)
  | returned hcall' htodo' hready => rw [Option.some.inj (hcall.symm.trans hcall')]
  | exec htodo' hready hexec =>
    rw [htodo] at htodo'
    exact absurd htodo'.symm (List.cons_ne_nil _ _)

/-- In the course of `cond_signal`. -/
def SignalSpan (lockOf : ℕ → ℕ) (c u : ℕ) (waiters : List ℕ) (s : State)
    (past : List (ℕ × Event)) : Prop :=
  Span lockOf c u (.condSignal c) waiters s past ∧
    Spot c (lockOf c) (s.todo u) (deliveries c past) (s.conds c)

theorem signalSpan_step (h : SignalSpan lockOf c u waiters s past) (howned : Owned lockOf s ph)
    (hstep : Step lockOf s (t, e) s') (hnot : (t, e) ≠ (u, .returned (.condSignal c))) :
    SignalSpan lockOf c u waiters s' (past ++ [(t, e)]) := by
  obtain ⟨hspan, hspot⟩ := h
  by_cases htu : t = u
  · subst htu
    by_cases hdone : s.todo t = []
    · exact absurd (congrArg (t, ·) (event_of_done hspan.call hdone hstep)) hnot
    · have htail : ∀ r rest, ([] : List Op) ≠ .semaUp r :: rest := fun _ _ ↦
        (List.cons_ne_nil _ _).symm
      obtain ⟨hadvances, ops', htodo', hspot'⟩ := spot_step hspot rfl hdone htail hspan.call
        (List.append_nil _).symm hstep
      obtain ⟨hspan', hdeliveries⟩ := hspan.own hadvances hstep
      refine ⟨hspan', ?_⟩
      rwa [hdeliveries, htodo', List.append_nil]
  · obtain ⟨hspan', htodo, hdeliveries, hconds⟩ := hspan.other howned htu hstep
    refine ⟨hspan', ?_⟩
    rwa [htodo, hdeliveries, hconds]

/-- In the course of `cond_broadcast`. -/
def BroadcastSpan (lockOf : ℕ → ℕ) (c u : ℕ) (waiters : List ℕ) (s : State)
    (past : List (ℕ × Event)) : Prop :=
  Span lockOf c u (.condBroadcast c) waiters s past ∧
    ((∃ ops earlier called, s.todo u = ops ++ [.signalAll c] ∧ deliveries c past = earlier ++ called ∧
      (ops = [] ∨ Spot c (lockOf c) ops called (s.conds c))) ∨ s.todo u = [] ∧ s.conds c = [])

theorem broadcastSpan_step (h : BroadcastSpan lockOf c u waiters s past) (howned : Owned lockOf s ph)
    (hstep : Step lockOf s (t, e) s') (hnot : (t, e) ≠ (u, .returned (.condBroadcast c))) :
    BroadcastSpan lockOf c u waiters s' (past ++ [(t, e)]) := by
  obtain ⟨hspan, hspot⟩ := h
  by_cases htu : t = u
  · subst htu
    rcases hspot with ⟨ops, earlier, called, htodo, hcalled, hspot⟩ | ⟨hdone, -⟩
    · by_cases hops : ops = []
      · subst hops
        obtain ⟨s₁, more, hexec, rfl⟩ := exec_of_step hspan.call htodo hstep
        cases hexec with
        | sleep hop hzero => simp at hop
        | take hop hpos => simp at hop
        | broadcastEnd hempty =>
          have hadvances : Advances c t s (s.setTodo t ([] ++ [])) .silent :=
            advances_silent htodo rfl rfl rfl (fun _ ↦ Event.noConfusion) (fun _ ↦ Op.noConfusion) rfl
              (by simp)
          exact ⟨(hspan.own hadvances hstep).1, Or.inr ⟨State.setTodo_self .., hempty⟩⟩
        | broadcastNext hne =>
          have hadvances : Advances c t s
              (s.setTodo t (condSignal c (lockOf c) ++ [.signalAll c] ++ [])) .silent :=
            advances_silent htodo rfl rfl rfl (fun _ ↦ Event.noConfusion) (fun _ ↦ Op.noConfusion) rfl
              (by simp [condSignal])
          exact ⟨(hspan.own hadvances hstep).1, Or.inl ⟨condSignal c (lockOf c), _, [],
            State.setTodo_self .., (List.append_nil _).symm, Or.inr (.start _)⟩⟩
      · obtain ⟨hadvances, ops', htodo', hspot'⟩ := spot_step (hspot.resolve_left hops) rfl hops
          (by simp) hspan.call htodo hstep
        obtain ⟨hspan', hdeliveries⟩ := hspan.own hadvances hstep
        refine ⟨hspan', Or.inl ⟨ops', earlier, _, htodo', ?_, Or.inr hspot'⟩⟩
        rw [hdeliveries, hcalled, List.append_assoc]
    · exact absurd (congrArg (t, ·) (event_of_done hspan.call hdone hstep)) hnot
  · obtain ⟨hspan', htodo, hdeliveries, hconds⟩ := hspan.other howned htu hstep
    refine ⟨hspan', ?_⟩
    rwa [htodo, hdeliveries, hconds]

/-! ### Runs -/

/-- A signal has reached the thread and it will find it: its semaphore is about to be raised, or has
been, and then the thread is not blocked and has the down still ahead. -/
def OnItsWay (s : State) (t : ℕ) : Prop :=
  (∃ u, s.blocked u = false ∧ Raises s u (.waiter t)) ∨
    s.blocked t = false ∧ (s.semas (.waiter t)).value = 1 ∧
      ∃ op ∈ s.todo t, op = .semaDown (.waiter t) ∨ op = .semaRetest (.waiter t)

/-- The signals on a condition have reached the waiters in the order of their arrival; every wait that
has ended has used one signal, and at most one more is on its way to a thread. -/
structure Delivered (history : List (ℕ × Event)) (s : State) : Prop where
  order : ∀ c, deliveries c history ++ s.conds c = arrivals c history
  once : ∀ t, downs history (.waiter t) ≤ received history t ∧
    received history t ≤ downs history (.waiter t) + 1
  kept : ∀ t, downs history (.waiter t) < received history t → OnItsWay s t

/-- The operation reads or writes the list of the condition. -/
def Op.Touches (c : ℕ) (op : Op) : Prop :=
  op = .pushWaiter c ∨ op = .signalTest c ∨ op = .signalPop c ∨ op = .signalAll c

theorem Delivers.onItsWay {w : ℕ → Wait} (h : Delivers s w) (hsleepers : Sleepers s)
    (hsignals : 0 < (w t).signals) : OnItsWay s t := by
  cases hw : w t with
  | popped u =>
    have hraises : Raises s u (.waiter t) := (h.popped t u).mp hw
    refine Or.inl ⟨u, ?_, hraises⟩
    by_contra hblocked
    obtain ⟨r, rest, hrest⟩ := hsleepers.asleep u (Bool.not_eq_false _ ▸ hblocked)
    obtain ⟨rest', hrest'⟩ := hraises
    rw [hrest'] at hrest
    exact Op.noConfusion (List.head_eq_of_cons_eq hrest)
  | signalled =>
    have hfollows := h.follows t
    rw [hw] at hfollows
    have hvalue := h.value t (by simp [hw])
    rw [if_pos hw] at hvalue
    refine Or.inr ⟨?_, hvalue, exists_down_of_waits hfollows⟩
    by_contra hblocked
    rw [Bool.not_eq_false] at hblocked
    obtain ⟨r, hretests⟩ := hsleepers.asleep t hblocked
    obtain ⟨rest, hrest⟩ := hretests
    rw [hrest, waits_cons] at hfollows
    have hr : r = .waiter t := by
      by_contra hne
      have hstage := hfollows.1
      rw [if_neg hne] at hstage
      exact Stage.noConfusion hstage
    have hmem := (hsleepers.sleeping r t).mpr ⟨hblocked, rest, hrest⟩
    rw [hr, h.awake t hw] at hmem
    exact List.not_mem_nil hmem
  | _ =>
    rw [hw] at hsignals
    exact absurd hsignals (Nat.lt_irrefl 0)

theorem Orderly.delivered (h : Orderly lockOf value s history) : Delivered history s := by
  obtain ⟨w, hdelivers, hreceived⟩ := h.delivers
  refine ⟨h.flow, fun t ↦ ?_, fun t ht ↦ hdelivers.onItsWay h.sound.sleepers ?_⟩
  · have hle : (w t).signals ≤ 1 := by cases w t <;> simp [Wait.signals]
    have ht := hreceived t
    omega
  · have ht' := hreceived t
    omega

/-- The list of a condition is touched with the lock held. -/
theorem Owned.touches (h : Owned lockOf s ph) (htodo : s.todo t = op :: rest)
    (htouches : op.Touches c) : s.holder (lockOf c) = some t := by
  have hfollows := h.follows t
  rw [htodo, wp_cons] at hfollows
  rw [(h.locks _).holder t]
  rcases htouches with rfl | rfl | rfl | rfl <;> exact hfollows.1

/-- `cond_wait` returns with the lock held. -/
theorem Owned.returned (h : Owned lockOf s ph)
    (hstep : Step lockOf s (t, .returned (.condWait c)) s') : s'.holder (lockOf c) = some t := by
  cases hstep with
  | returned hcall htodo hready =>
    have hdone := h.follows t
    rw [htodo, hcall] at hdone
    exact ((h.locks _).holder t).mpr (hdone.2 c rfl)
  | exec htodo hready hexec => exact absurd (exec_executes hexec) (by rintro ⟨⟩)

/-- What holds in the course of a call holds as long as the call has not returned. -/
theorem span_run {span : State → List (ℕ × Event) → Prop} {s₁ s₂ : State}
    (h : Orderly lockOf value s₁ history) (hrun : Run (Step lockOf) s₁ past s₂)
    (hspan : span s₁ []) (hnot : (u, .returned f) ∉ past)
    (hstep : ∀ (s s' : State) (past : List (ℕ × Event)) (t : ℕ) (e : Event) (ph : ℕ → ℕ → Phase),
      span s past → Owned lockOf s ph → Step lockOf s (t, e) s' → (t, e) ≠ (u, .returned f) →
        span s' (past ++ [(t, e)])) : span s₂ past := by
  have hkeep : ∀ (s : State) (past : List (ℕ × Event)) (label : ℕ × Event) (s' : State),
      (Orderly lockOf value s (history ++ past) ∧ ((u, .returned f) ∉ past → span s past)) →
        Step lockOf s label s' → (Orderly lockOf value s' (history ++ (past ++ [label])) ∧
          ((u, .returned f) ∉ past ++ [label] → span s' (past ++ [label]))) := by
    rintro s past ⟨t, e⟩ s' ⟨horderly, hpast⟩ hlabel
    rw [← List.append_assoc]
    refine ⟨orderly_step horderly hlabel, fun hnot' ↦ ?_⟩
    rw [List.mem_append, not_or, List.mem_singleton] at hnot'
    obtain ⟨ph, howned, -⟩ := horderly.sound.owned
    exact hstep s s' past t e ph (hpast hnot'.1) howned hlabel (Ne.symm hnot'.2)
  have hstart : Orderly lockOf value s₁ (history ++ []) ∧
      ((u, .returned f) ∉ ([] : List (ℕ × Event)) → span s₁ []) :=
    ⟨by rwa [List.append_nil], fun _ ↦ hspan⟩
  exact (hrun.history hkeep hstart).2 hnot

/-- `cond_signal` wakes the first thread on the list, if there is one. -/
theorem signal_hasWoken {s₁ s₂ : State} (h : Orderly lockOf value s history)
    (hcall : Step lockOf s (u, .call (.condSignal c)) s₁) (hrun : Run (Step lockOf) s₁ past s₂)
    (hnot : (u, .returned (.condSignal c)) ∉ past) (htodo : s₂.todo u = []) :
    HasWoken c u (s.conds c) ((s.conds c).take 1) s₂ past := by
  obtain ⟨hbegin, hops⟩ := Span.begin hcall (Or.inl rfl)
  have hspot : Spot c (lockOf c) (s₁.todo u) (deliveries c []) (s₁.conds c) := by
    rw [hops]
    exact .start _
  obtain ⟨hspan, hend⟩ := span_run (orderly_step h hcall) hrun ⟨hbegin, hspot⟩ hnot
    fun s s' past t e ph hspan howned hstep hne ↦ signalSpan_step hspan howned hstep hne
  have hwoken := hspan.hasWoken htodo
  have hflow := hspan.flow
  rw [htodo] at hend
  have htake : deliveries c past = (s.conds c).take 1 := by
    rw [← hflow]
    generalize deliveries c past = called at hend
    generalize s₂.conds c = waiters at hend
    cases hend <;> rfl
  rwa [htake] at hwoken

/-- `cond_broadcast` wakes all threads on the list. -/
theorem broadcast_hasWoken {s₁ s₂ : State} (h : Orderly lockOf value s history)
    (hcall : Step lockOf s (u, .call (.condBroadcast c)) s₁) (hrun : Run (Step lockOf) s₁ past s₂)
    (hnot : (u, .returned (.condBroadcast c)) ∉ past) (htodo : s₂.todo u = []) :
    HasWoken c u (s.conds c) (s.conds c) s₂ past := by
  obtain ⟨hbegin, hops⟩ := Span.begin hcall (Or.inr rfl)
  obtain ⟨hspan, hend⟩ := span_run (orderly_step h hcall) hrun
    ⟨hbegin, Or.inl ⟨[], [], [], hops, rfl, Or.inl rfl⟩⟩ hnot
    fun s s' past t e ph hspan howned hstep hne ↦ broadcastSpan_step hspan howned hstep hne
  have hwoken := hspan.hasWoken htodo
  have hflow := hspan.flow
  rcases hend with ⟨ops, -, -, hops', -⟩ | ⟨-, hconds⟩
  · rw [htodo] at hops'
    exact absurd hops'.symm (List.append_ne_nil_of_right_ne_nil _ (List.cons_ne_nil _ _))
  · rw [hconds, List.append_nil] at hflow
    rwa [hflow] at hwoken

/-- In every run the signals reach the waiters in order and none is lost; `cond_signal` wakes the
thread that has waited longest and `cond_broadcast` all that wait when it is called; `cond_wait` returns
with the lock held; and nobody touches the list of a condition without the lock. -/
theorem run_conditions (hvalue : ∀ x, value x < unsignedSize)
    (hrun : Run (Step lockOf) (initial value) history s) :
    Delivered history s ∧
      (∀ (c u : ℕ) (s₁ s₂ : State) (past : List (ℕ × Event)),
        Step lockOf s (u, .call (.condSignal c)) s₁ → Run (Step lockOf) s₁ past s₂ →
          (u, .returned (.condSignal c)) ∉ past → s₂.todo u = [] →
            HasWoken c u (s.conds c) ((s.conds c).take 1) s₂ past) ∧
      (∀ (c u : ℕ) (s₁ s₂ : State) (past : List (ℕ × Event)),
        Step lockOf s (u, .call (.condBroadcast c)) s₁ → Run (Step lockOf) s₁ past s₂ →
          (u, .returned (.condBroadcast c)) ∉ past → s₂.todo u = [] →
            HasWoken c u (s.conds c) (s.conds c) s₂ past) ∧
      (∀ (c t : ℕ) (s' : State), Step lockOf s (t, .returned (.condWait c)) s' →
        s'.holder (lockOf c) = some t) ∧
      ∀ (c t : ℕ) (op : Op) (rest : List Op), s.todo t = op :: rest → op.Touches c →
        s.holder (lockOf c) = some t := by
  have hkeep : ∀ (s : State) (past : List (ℕ × Event)) (label : ℕ × Event) (s' : State),
      Orderly lockOf value s past → Step lockOf s label s' →
        Orderly lockOf value s' (past ++ [label]) :=
    fun _ _ _ _ h hstep ↦ orderly_step h hstep
  have h := hrun.history hkeep (orderly_initial hvalue)
  obtain ⟨ph, howned, -⟩ := h.sound.owned
  exact ⟨h.delivered, fun c u s₁ s₂ past ↦ signal_hasWoken h,
    fun c u s₁ s₂ past ↦ broadcast_hasWoken h, fun c t s' hstep ↦ howned.returned hstep,
    fun c t op rest htodo ↦ howned.touches htodo⟩

/-- Thread 1 takes a lock and is queued on a condition. -/
theorem run_conditions_wait : ∃ history s, arrivals 0 history = [1] ∧ Delivered history s := by
  have hrun : ∃ s, Run (Step id) (initial fun _ ↦ 0)
      [(1, .call (.lockAcquire 0)), (1, .silent), (1, .downed (.lock 0)), (1, .silent),
        (1, .returned (.lockAcquire 0)), (1, .call (.condWait 0)), (1, .silent), (1, .silent),
        (1, .queued 0)] s :=
    ⟨_, .cons (.call rfl rfl trivial) (.cons (.exec (rfl : _ = Op.assertNotHeld 0 :: _) rfl rfl)
      (.cons (.exec (rfl : _ = Op.semaDown (.lock 0) :: _) rfl rfl)
        (.cons (.exec (rfl : _ = Op.setHolder 0 :: _) rfl rfl) (.cons (.returned rfl rfl rfl)
          (.cons (.call rfl rfl rfl) (.cons (.exec (rfl : _ = Op.assertHeld 0 :: _) rfl rfl)
            (.cons (.exec (rfl : _ = Op.semaInit (.waiter 1) 0 :: _) rfl rfl)
              (.single (.exec (rfl : _ = Op.pushWaiter 0 :: _) rfl rfl)))))))))⟩
  obtain ⟨s, hrun⟩ := hrun
  exact ⟨_, s, rfl, (run_conditions (fun _ ↦ by decide) hrun).1⟩

end Jungle.Threads
