import Jungle.Threads.Synch

/-!
# Who owns a lock

A thread is in a phase with respect to each lock: it is outside, has taken the semaphore but not yet
stored itself as the holder, holds the lock, or has cleared the holder but not yet raised the
semaphore. `Op.wp` says what an operation needs of the phases of its thread and what it makes of them;
the operations left to a thread follow the rules to their end (`wp`). `LockOk` says how the semaphore
and the holder of a lock go with the phases of all threads, and `exec_owned` that every operation keeps
this.
-/

set_option autoImplicit false
set_option relaxedAutoImplicit false

namespace Jungle.Threads

open Jungle.Lib

/-- Where a thread is with respect to a lock. -/
inductive Phase
  | out
  | taken
  | held
  | leaving
deriving DecidableEq

/-- The number of units of the semaphore of a lock that a thread has. -/
def Phase.units (p : Phase) : ℕ := if p = .out then 0 else 1

/-- The phases of a thread from which an operation leads to a condition. -/
def Op.wp (lockOf : ℕ → ℕ) (Q : (ℕ → Phase) → Prop) (φ : ℕ → Phase) : Op → Prop
  | .semaInit (.lock _) _ => False
  | .semaDown (.lock l) => φ l = .out ∧ Q (Function.update φ l .taken)
  | .semaRetest (.lock l) => φ l = .out ∧ Q (Function.update φ l .taken)
  | .semaUp (.lock l) => φ l = .leaving ∧ Q (Function.update φ l .out)
  | .lockTryDown l => φ l = .out ∧ Q φ ∧ Q (Function.update φ l .held)
  | .setHolder l => φ l = .taken ∧ Q (Function.update φ l .held)
  | .clearHolder l => φ l = .held ∧ Q (Function.update φ l .leaving)
  | .assertHeld l => φ l = .held → Q φ
  | .assertNotHeld l => φ l ≠ .held → Q φ
  | .pushWaiter c => φ (lockOf c) = .held ∧ Q φ
  | .signalTest c => φ (lockOf c) = .held ∧ Q φ
  | .signalPop c => φ (lockOf c) = .held ∧ Q φ
  | .signalAll c => φ (lockOf c) = .held ∧ Q φ
  | _ => Q φ

/-- The phases of a thread from which operations lead to a condition. -/
def wp (lockOf : ℕ → ℕ) (Q : (ℕ → Phase) → Prop) (ops : List Op) : (ℕ → Phase) → Prop :=
  ops.foldr (fun op Q φ ↦ op.wp lockOf Q φ) Q

/-- The phases of a thread that has come to the end of a call: it holds a lock or is outside, and
`cond_wait` ends with the lock held. -/
def Done (lockOf : ℕ → ℕ) (f : Option Call) (φ : ℕ → Phase) : Prop :=
  (∀ l, φ l = .out ∨ φ l = .held) ∧ ∀ c, f = some (.condWait c) → φ (lockOf c) = .held

/-- The value of the semaphore of a lock and its holder go with the phases of the threads. -/
structure LockOk (value : ℕ) (holder : Option ℕ) (φ : ℕ → Phase) : Prop where
  owner : value = 1 ∧ (∀ t, φ t = .out) ∨ value = 0 ∧ ∃ t, ∀ u, φ u ≠ .out ↔ u = t
  holder : ∀ t, holder = some t ↔ φ t = .held

/-- All locks go with the phases. -/
def LocksOk (s : State) (ph : ℕ → ℕ → Phase) : Prop :=
  ∀ l, LockOk (s.semas (.lock l)).value (s.holder l) fun t ↦ ph t l

variable {lockOf : ℕ → ℕ} {Q : (ℕ → Phase) → Prop} {ops ops' more rest : List Op} {op : Op}
  {value l t u c : ℕ} {holder : Option ℕ} {φ : ℕ → Phase} {p : Phase} {ph : ℕ → ℕ → Phase}
  {s s' : State} {e : Event} {r : SemaRef}

@[simp] theorem wp_nil : wp lockOf Q [] φ ↔ Q φ := Iff.rfl

@[simp] theorem wp_cons : wp lockOf Q (op :: ops) φ ↔ op.wp lockOf (wp lockOf Q ops) φ := Iff.rfl

theorem wp_append : wp lockOf Q (ops ++ ops') = wp lockOf (wp lockOf Q ops') ops := by
  rw [wp, List.foldr_append]
  rfl

/-! ### One lock -/

/-- A lock has one owner at most. -/
theorem LockOk.unique (h : LockOk value holder φ) (ht : φ t ≠ .out) (hu : φ u ≠ .out) : t = u := by
  rcases h.owner with ⟨-, hout⟩ | ⟨-, w, hw⟩
  · exact absurd (hout t) ht
  · rw [(hw t).mp ht, (hw u).mp hu]

/-- A thread takes the semaphore. -/
theorem LockOk.take (h : LockOk value holder φ) (hvalue : value ≠ 0) (t : ℕ) :
    LockOk (value - 1) holder (Function.update φ t .taken) := by
  obtain ⟨rfl, hout⟩ : value = 1 ∧ ∀ u, φ u = .out :=
    h.owner.resolve_right fun hzero ↦ hvalue hzero.1
  refine ⟨Or.inr ⟨rfl, t, fun u ↦ ?_⟩, fun u ↦ ?_⟩
  · by_cases hu : u = t
    · simp [hu]
    · simp [hout u, hu]
  · have hnone : holder ≠ some u := fun hsome ↦ by
      have hheld := (h.holder u).mp hsome
      rw [hout u] at hheld
      exact Phase.noConfusion hheld
    by_cases hu : u = t
    · subst hu
      simp [hnone]
    · simp [Function.update_of_ne hu, hout u, hnone]

/-- The owner of a lock goes from one phase to another; the holder is stored as it says. -/
theorem LockOk.move (h : LockOk value holder φ) (hold : φ t ≠ .out) (hnew : p ≠ .out) :
    LockOk value (if p = .held then some t else none) (Function.update φ t p) := by
  have hout : ∀ u, u ≠ t → φ u = .out := fun u hu ↦
    Decidable.byContradiction fun hne ↦ hu (h.unique hne hold)
  obtain ⟨rfl, w, hw⟩ : value = 0 ∧ ∃ w, ∀ u, φ u ≠ .out ↔ u = w :=
    h.owner.resolve_left fun hone ↦ hold (hone.2 t)
  obtain rfl : t = w := (hw t).mp hold
  refine ⟨Or.inr ⟨rfl, t, fun u ↦ ?_⟩, fun u ↦ ?_⟩
  · by_cases hu : u = t
    · simp [hu, hnew]
    · simp [hout u hu, hu]
  · by_cases hu : u = t
    · subst hu
      by_cases hp : p = .held <;> simp [hp]
    · have htu : t ≠ u := Ne.symm hu
      by_cases hp : p = .held <;> simp [Function.update_of_ne hu, hout u hu, hp, htu]

/-- A thread raises the semaphore. -/
theorem LockOk.give (h : LockOk value holder φ) (hold : φ t = .leaving) :
    LockOk ((value + 1) % unsignedSize) holder (Function.update φ t .out) := by
  have hne : φ t ≠ .out := by
    rw [hold]
    exact Phase.noConfusion
  obtain ⟨rfl, -⟩ : value = 0 ∧ ∃ w, ∀ u, φ u ≠ .out ↔ u = w :=
    h.owner.resolve_left fun hone ↦ hne (hone.2 t)
  have hout : ∀ u, u ≠ t → φ u = .out := fun u hu ↦
    Decidable.byContradiction fun hu' ↦ hu (h.unique hu' hne)
  refine ⟨Or.inl ⟨rfl, fun u ↦ ?_⟩, fun u ↦ ?_⟩
  · by_cases hu : u = t
    · rw [hu, Function.update_self]
    · rw [Function.update_of_ne hu, hout u hu]
  · rw [h.holder u]
    by_cases hu : u = t
    · simp [hu, hold]
    · rw [Function.update_of_ne hu]

/-! ### All locks -/

/-- After an operation of a thread its phases have moved on, the locks go with them, and the units it
has are counted by what happened. -/
def Moved (lockOf : ℕ → ℕ) (Q : (ℕ → Phase) → Prop) (ph : ℕ → ℕ → Phase) (s' : State) (t : ℕ)
    (more : List Op) (e : Event) : Prop :=
  ∃ φ, wp lockOf Q more φ ∧ LocksOk s' (Function.update ph t φ) ∧
    ∀ l, (φ l).units + (if e = .upped (.lock l) then 1 else 0) =
      (ph t l).units + if e = .downed (.lock l) then 1 else 0

/-- An operation that touches no lock. -/
theorem moved_frame (h : LocksOk s ph) (hQ : wp lockOf Q more (ph t))
    (hvalue : ∀ l, (s'.semas (.lock l)).value = (s.semas (.lock l)).value)
    (hholder : s'.holder = s.holder) (hup : ∀ l, e ≠ .upped (.lock l))
    (hdown : ∀ l, e ≠ .downed (.lock l)) : Moved lockOf Q ph s' t more e := by
  refine ⟨ph t, hQ, fun l ↦ ?_, fun l ↦ ?_⟩
  · rw [hvalue, hholder, Function.update_eq_self]
    exact h l
  · rw [if_neg (hup l), if_neg (hdown l)]

/-- An operation that touches one lock. -/
theorem moved_change (h : LocksOk s ph) (hQ : wp lockOf Q more (Function.update (ph t) l p))
    (hlock : LockOk (s'.semas (.lock l)).value (s'.holder l)
      (Function.update (fun u ↦ ph u l) t p))
    (hvalue : ∀ k, k ≠ l → (s'.semas (.lock k)).value = (s.semas (.lock k)).value)
    (hholder : ∀ k, k ≠ l → s'.holder k = s.holder k)
    (hunits : p.units + (if e = .upped (.lock l) then 1 else 0) =
      (ph t l).units + if e = .downed (.lock l) then 1 else 0)
    (hother : ∀ k, k ≠ l → e ≠ .upped (.lock k) ∧ e ≠ .downed (.lock k)) :
    Moved lockOf Q ph s' t more e := by
  refine ⟨Function.update (ph t) l p, hQ, fun k ↦ ?_, fun k ↦ ?_⟩
  · by_cases hk : k = l
    · subst hk
      convert hlock using 2 with u
      by_cases hu : u = t
      · subst hu
        rw [Function.update_self, Function.update_self, Function.update_self]
      · rw [Function.update_of_ne hu, Function.update_of_ne hu]
    · rw [hvalue k hk, hholder k hk]
      convert h k using 2 with u
      by_cases hu : u = t
      · subst hu
        rw [Function.update_self, Function.update_of_ne hk]
      · rw [Function.update_of_ne hu]
  · by_cases hk : k = l
    · subst hk
      rwa [Function.update_self]
    · rw [Function.update_of_ne hk, if_neg (hother k hk).1, if_neg (hother k hk).2]

/-! ### The operations -/

theorem setSema_value (s : State) (r r' : SemaRef) (waiters : List ℕ) :
    ((s.setSema r ⟨(s.semas r).value, waiters⟩).semas r').value = (s.semas r').value := by
  by_cases hr : r' = r
  · subst hr
    rw [State.setSema_self]
  · rw [State.setSema_of_ne s hr]

/-- A change of a semaphore that belongs to no lock. -/
theorem moved_setSema {sema : Semaphore} (h : LocksOk s ph) (hQ : wp lockOf Q more (ph t))
    (hr : ∀ l, r ≠ .lock l) (hsemas : s'.semas = (s.setSema r sema).semas)
    (hholder : s'.holder = s.holder) (he : e = .silent ∨ e = .upped r ∨ e = .downed r) :
    Moved lockOf Q ph s' t more e := by
  refine moved_frame h hQ (fun l ↦ ?_) hholder (fun l ↦ ?_) fun l ↦ ?_
  · rw [hsemas, State.setSema_of_ne s (Ne.symm (hr l))]
  · rcases he with rfl | rfl | rfl <;> simp [hr l]
  · rcases he with rfl | rfl | rfl <;> simp [hr l]

theorem moved_take (h : LocksOk s ph) (hpos : 0 < (s.semas (.lock l)).value)
    (hout : ph t l = .out) (hQ : wp lockOf Q more (Function.update (ph t) l .taken)) :
    Moved lockOf Q ph (s.take (.lock l)) t more (.downed (.lock l)) := by
  have hlock := (h l).take (Nat.pos_iff_ne_zero.mp hpos) t
  refine moved_change h hQ ?_ (fun k hk ↦ ?_) (fun k _ ↦ rfl) ?_ fun k hk ↦ ?_
  · rwa [State.take, State.setSema_self]
  · rw [State.take, State.setSema_of_ne _ (by simpa using hk)]
  · simp [hout, Phase.units]
  · simp [Ne.symm hk]

theorem moved_give {sema : Semaphore} (h : LocksOk s ph) (hleaving : ph t l = .leaving)
    (hQ : wp lockOf Q [] (Function.update (ph t) l .out))
    (hvalue : sema.value = ((s.semas (.lock l)).value + 1) % unsignedSize)
    (hsemas : s'.semas = (s.setSema (.lock l) sema).semas) (hholder : s'.holder = s.holder) :
    Moved lockOf Q ph s' t [] (.upped (.lock l)) := by
  have hlock := (h l).give hleaving
  refine moved_change h hQ ?_ (fun k hk ↦ ?_) (fun k _ ↦ by rw [hholder]) ?_ fun k hk ↦ ?_
  · rwa [hsemas, State.setSema_self, hvalue, hholder]
  · rw [hsemas, State.setSema_of_ne _ (by simpa using hk)]
  · simp [hleaving, Phase.units]
  · simp [Ne.symm hk]

theorem moved_holder (h : LocksOk s ph) (hold : ph t l ≠ .out) (hp : p ≠ .out)
    (hQ : wp lockOf Q [] (Function.update (ph t) l p)) :
    Moved lockOf Q ph (s.setHolder l (if p = .held then some t else none)) t [] .silent := by
  have hlock := (h l).move hold hp
  refine moved_change h hQ ?_ (fun k _ ↦ rfl) (fun k hk ↦ Function.update_of_ne hk ..) ?_
    fun k _ ↦ ⟨Event.noConfusion, Event.noConfusion⟩
  · rw [State.setHolder_self]
    exact hlock
  · simp [Phase.units, hold, hp]

/-- `sema_up` on any semaphore. -/
theorem moved_semaUp {sema : Semaphore} (h : LocksOk s ph) (hwp : (Op.semaUp r).wp lockOf Q (ph t))
    (hvalue : sema.value = ((s.semas r).value + 1) % unsignedSize)
    (hsemas : s'.semas = (s.setSema r sema).semas) (hholder : s'.holder = s.holder) :
    Moved lockOf Q ph s' t [] (.upped r) := by
  cases r with
  | lock l => exact moved_give h hwp.1 hwp.2 hvalue hsemas hholder
  | sema x =>
    exact moved_setSema h hwp (fun _ ↦ SemaRef.noConfusion) hsemas hholder (Or.inr (Or.inl rfl))
  | waiter u =>
    exact moved_setSema h hwp (fun _ ↦ SemaRef.noConfusion) hsemas hholder (Or.inr (Or.inl rfl))

/-- Every operation that follows the rules keeps what goes with the locks. -/
theorem executes_moved (h : LocksOk s ph) (hwp : op.wp lockOf Q (ph t))
    (hexec : Executes lockOf s t op s' more e) : Moved lockOf Q ph s' t more e := by
  have hsilent : ∀ more, wp lockOf Q more (ph t) → Moved lockOf Q ph s t more .silent :=
    fun more hmore ↦ moved_frame h hmore (fun _ ↦ rfl) rfl (fun _ ↦ Event.noConfusion)
      fun _ ↦ Event.noConfusion
  cases hexec with
  | semaInit r value =>
    cases r with
    | lock l => exact hwp.elim
    | sema x =>
      exact moved_setSema h hwp (fun _ ↦ SemaRef.noConfusion) rfl rfl (Or.inl rfl)
    | waiter u =>
      exact moved_setSema h hwp (fun _ ↦ SemaRef.noConfusion) rfl rfl (Or.inl rfl)
  | @sleep _ r hop hzero =>
    have hwp' : (Op.semaRetest r).wp lockOf Q (ph t) := by
      rcases hop with rfl | rfl
      · cases r <;> exact hwp
      · exact hwp
    exact moved_frame h hwp' (fun l ↦ setSema_value s r (.lock l) _) rfl
      (fun _ ↦ Event.noConfusion) fun _ ↦ Event.noConfusion
  | @take _ r hop hpos =>
    cases r with
    | lock l =>
      have hwp' : ph t l = .out ∧ Q (Function.update (ph t) l .taken) := by
        rcases hop with rfl | rfl | ⟨x, -, hx⟩
        · exact hwp
        · exact hwp
        · exact SemaRef.noConfusion hx
      exact moved_take h hpos hwp'.1 hwp'.2
    | sema x =>
      have hwp' : Q (ph t) := by
        rcases hop with rfl | rfl | ⟨x, rfl, -⟩ <;> exact hwp
      exact moved_setSema h hwp' (fun _ ↦ SemaRef.noConfusion) rfl rfl (Or.inr (Or.inr rfl))
    | waiter u =>
      have hwp' : Q (ph t) := by
        rcases hop with rfl | rfl | ⟨x, rfl, -⟩ <;> exact hwp
      exact moved_setSema h hwp' (fun _ ↦ SemaRef.noConfusion) rfl rfl (Or.inr (Or.inr rfl))
  | @lockTryDown l hpos =>
    refine moved_take h hpos hwp.1 ⟨Function.update_self .., ?_⟩
    rw [Function.update_idem]
    exact hwp.2.2
  | semaTryDown x => exact hsilent [] hwp
  | lockFail l => exact hsilent [] hwp.2.1
  | raise hempty => exact moved_semaUp h hwp rfl rfl rfl
  | wake hfirst hblocked => exact moved_semaUp h hwp rfl rfl rfl
  | setHolder l =>
    have htaken : ph t l ≠ .out := by simp [hwp.1]
    exact moved_holder h htaken Phase.noConfusion hwp.2
  | clearHolder l =>
    have hheld : ph t l ≠ .out := by simp [hwp.1]
    exact moved_holder h hheld Phase.noConfusion hwp.2
  | @assertHeld l hholder => exact hsilent [] (hwp (((h l).holder t).mp hholder))
  | @assertNotHeld l hholder => exact hsilent [] (hwp fun hheld ↦ hholder (((h l).holder t).mpr hheld))
  | pushWaiter c =>
    exact moved_frame h hwp.2 (fun _ ↦ rfl) rfl (fun _ ↦ Event.noConfusion) fun _ ↦ Event.noConfusion
  | signalNone hempty =>
    exact moved_frame h hwp.2 (fun _ ↦ rfl) rfl (fun _ ↦ Event.noConfusion) fun _ ↦ Event.noConfusion
  | signalSome hne => exact hsilent _ hwp
  | signalPop hfirst =>
    exact moved_frame h hwp.2 (fun _ ↦ rfl) rfl (fun _ ↦ Event.noConfusion) fun _ ↦ Event.noConfusion
  | broadcastEnd hempty => exact hsilent [] hwp.2
  | broadcastNext hne => exact hsilent _ fun _ ↦ ⟨hwp.1, hwp⟩

/-! ### Steps and runs -/

/-- The operations left to every thread follow the rules, and the locks go with the phases. -/
structure Owned (lockOf : ℕ → ℕ) (s : State) (ph : ℕ → ℕ → Phase) : Prop where
  idle : ∀ t, s.call t = none → s.todo t = []
  follows : ∀ t, wp lockOf (Done lockOf (s.call t)) (s.todo t) (ph t)
  locks : LocksOk s ph

/-- A thread has completed as many downs of a lock more than ups as it has units. -/
def Counted (history : List (ℕ × Event)) (ph : ℕ → ℕ → Phase) : Prop :=
  ∀ t l, history.count (t, .downed (.lock l)) =
    history.count (t, .upped (.lock l)) + (ph t l).units

theorem Executes.frame (h : Executes lockOf s t op s' more e) :
    s'.todo = s.todo ∧ s'.call = s.call := by
  cases h <;> exact ⟨rfl, rfl⟩

theorem settled_update (h : ∀ k, φ k = .out ∨ φ k = .held) (hp : p = .out ∨ p = .held) (k : ℕ) :
    Function.update φ l p k = .out ∨ Function.update φ l p k = .held := by
  by_cases hk : k = l
  · rwa [hk, Function.update_self]
  · rw [Function.update_of_ne hk]
    exact h k

theorem lockAcquire_follows (h : ∀ k, φ k = .out ∨ φ k = .held)
    (hQ : Q (Function.update φ l .held)) : wp lockOf Q (lockAcquire l) φ := by
  intro hheld
  refine ⟨(h l).resolve_right hheld, Function.update_self .., ?_⟩
  rwa [Function.update_idem]

theorem lockRelease_follows (hQ : Q (Function.update φ l .out)) :
    wp lockOf Q (lockRelease l) φ := by
  intro hheld
  refine ⟨hheld, Function.update_self .., ?_⟩
  rwa [Function.update_idem]

/-- Every function follows the rules. -/
theorem call_follows (h : ∀ k, φ k = .out ∨ φ k = .held) (f : Call)
    (hcond : ∀ c, f = .condWait c ∨ f = .condSignal c ∨ f = .condBroadcast c →
      φ (lockOf c) = .held) (t : ℕ) : wp lockOf (Done lockOf (some f)) (f.ops lockOf t) φ := by
  have hdone : ∀ φ : ℕ → Phase, (∀ k, φ k = .out ∨ φ k = .held) → (∀ c, f ≠ .condWait c) →
      Done lockOf (some f) φ := fun φ hφ hf ↦ ⟨hφ, fun c hc ↦ absurd (Option.some.inj hc) (hf c)⟩
  cases f with
  | semaDown x => exact hdone φ h fun c ↦ Call.noConfusion
  | semaTryDown x => exact hdone φ h fun c ↦ Call.noConfusion
  | semaUp x => exact hdone φ h fun c ↦ Call.noConfusion
  | lockAcquire l =>
    exact lockAcquire_follows h (hdone _ (settled_update h (Or.inr rfl)) fun c ↦ Call.noConfusion)
  | lockTryAcquire l =>
    intro hheld
    exact ⟨(h l).resolve_right hheld, hdone φ h fun c ↦ Call.noConfusion,
      hdone _ (settled_update h (Or.inr rfl)) fun c ↦ Call.noConfusion⟩
  | lockRelease l =>
    exact lockRelease_follows (hdone _ (settled_update h (Or.inl rfl)) fun c ↦ Call.noConfusion)
  | condWait c =>
    have hout := settled_update (l := lockOf c) h (Or.inl rfl)
    intro hheld
    refine ⟨hheld, ?_⟩
    change wp lockOf _ (lockRelease (lockOf c) ++
      ([.semaDown (.waiter t)] ++ lockAcquire (lockOf c))) φ
    rw [wp_append, wp_append]
    refine lockRelease_follows (lockAcquire_follows hout ⟨settled_update hout (Or.inr rfl), ?_⟩)
    intro c' hc
    obtain rfl : c = c' := Call.condWait.inj (Option.some.inj hc)
    exact Function.update_self ..
  | condSignal c =>
    intro hheld
    exact ⟨hheld, hdone φ h fun c ↦ Call.noConfusion⟩
  | condBroadcast c =>
    exact ⟨hcond c (Or.inr (Or.inr rfl)), hdone φ h fun c ↦ Call.noConfusion⟩

/-- A thread in no call is outside or holds. -/
theorem Owned.settled (h : Owned lockOf s ph) (htodo : s.todo t = []) (l : ℕ) :
    ph t l = .out ∨ ph t l = .held := by
  have hdone := h.follows t
  rw [htodo] at hdone
  exact hdone.1 l

/-- Other threads and other operations do not count. -/
theorem Counted.snoc {history : List (ℕ × Event)} (h : Counted history ph)
    (hunits : ∀ l, (φ l).units + (if e = .upped (.lock l) then 1 else 0) =
      (ph t l).units + if e = .downed (.lock l) then 1 else 0) :
    Counted (history ++ [(t, e)]) (Function.update ph t φ) := by
  intro u l
  rw [List.count_append, List.count_append, h u l, List.count_singleton, List.count_singleton]
  by_cases hu : u = t
  · subst hu
    rw [Function.update_self]
    have hl := hunits l
    simp only [beq_iff_eq, Prod.mk.injEq, true_and]
    omega
  · have htu : t ≠ u := Ne.symm hu
    rw [Function.update_of_ne hu]
    simp [htu]

/-- A step that is no call of an operation changes no phase. -/
theorem Counted.snoc_same {history : List (ℕ × Event)} (h : Counted history ph)
    (hup : ∀ l, e ≠ .upped (.lock l)) (hdown : ∀ l, e ≠ .downed (.lock l)) :
    Counted (history ++ [(t, e)]) ph := by
  have hsnoc := h.snoc (t := t) (e := e) (φ := ph t) fun l ↦ by
    rw [if_neg (hup l), if_neg (hdown l)]
  rwa [Function.update_eq_self] at hsnoc

/-- A step keeps the rules, the locks and the counts. -/
theorem owned_step {history : List (ℕ × Event)} (h : Owned lockOf s ph) (hcounted : Counted history ph)
    (hstep : Step lockOf s (t, e) s') :
    ∃ ph', Owned lockOf s' ph' ∧ Counted (history ++ [(t, e)]) ph' := by
  cases hstep with
  | @call _ f hidle hready hallowed =>
    refine ⟨ph, ⟨fun u hu ↦ ?_, fun u ↦ ?_, h.locks⟩,
      hcounted.snoc_same (fun _ ↦ Event.noConfusion) fun _ ↦ Event.noConfusion⟩
    · by_cases hut : u = t
      · subst hut
        rw [State.setCall_self] at hu
        exact absurd hu (Option.some_ne_none f)
      · rw [State.setCall_of_ne _ hut] at hu
        exact (State.setTodo_of_ne s hut _).trans (h.idle u hu)
    · by_cases hut : u = t
      · subst hut
        have hcond : ∀ c, f = .condWait c ∨ f = .condSignal c ∨ f = .condBroadcast c →
            ph u (lockOf c) = .held := by
          rintro c (rfl | rfl | rfl) <;> exact ((h.locks _).holder u).mp hallowed
        have hfollows := call_follows (h.settled (h.idle u hidle)) f hcond u
        rw [State.setCall_self]
        change wp lockOf _ ((s.setTodo u (f.ops lockOf u)).todo u) _
        rwa [State.setTodo_self]
      · rw [State.setCall_of_ne _ hut]
        change wp lockOf _ ((s.setTodo t (f.ops lockOf t)).todo u) _
        rw [State.setTodo_of_ne _ hut]
        exact h.follows u
  | @exec s₁ _ op rest more _ htodo hready hexec =>
    have hexecutes := exec_executes hexec
    obtain ⟨htodos, hcalls⟩ := hexecutes.frame
    have hfollows := h.follows t
    rw [htodo, wp_cons] at hfollows
    obtain ⟨φ, hφ, hlocks, hunits⟩ := executes_moved h.locks hfollows hexecutes
    refine ⟨Function.update ph t φ, ⟨fun u hu ↦ ?_, fun u ↦ ?_, hlocks⟩, hcounted.snoc hunits⟩
    · have hu' : s.call u = none := by rwa [← hcalls]
      have hut : u ≠ t := by
        rintro rfl
        have hnil := h.idle u hu'
        rw [htodo] at hnil
        exact List.cons_ne_nil _ _ hnil
      rw [State.setTodo_of_ne _ hut, htodos]
      exact h.idle u hu'
    · change wp lockOf (Done lockOf (s₁.call u)) _ _
      rw [hcalls]
      by_cases hut : u = t
      · subst hut
        rwa [State.setTodo_self, wp_append, Function.update_self]
      · rw [State.setTodo_of_ne _ hut, htodos, Function.update_of_ne hut]
        exact h.follows u
  | @returned _ f hcall htodo hready =>
    refine ⟨ph, ⟨fun u hu ↦ ?_, fun u ↦ ?_, h.locks⟩,
      hcounted.snoc_same (fun _ ↦ Event.noConfusion) fun _ ↦ Event.noConfusion⟩
    · by_cases hut : u = t
      · exact hut ▸ htodo
      · rw [State.setCall_of_ne _ hut] at hu
        exact h.idle u hu
    · by_cases hut : u = t
      · subst hut
        rw [State.setCall_self]
        change wp lockOf _ (s.todo u) _
        rw [htodo]
        exact ⟨h.settled htodo, fun c hc ↦ absurd hc (Option.some_ne_none _).symm⟩
      · rw [State.setCall_of_ne _ hut]
        exact h.follows u

theorem owned_initial (value : ℕ → ℕ) : Owned lockOf (initial value) fun _ _ ↦ .out where
  idle _ _ := rfl
  follows _ := ⟨fun _ ↦ Or.inl rfl, fun _ hc ↦ absurd hc (Option.some_ne_none _).symm⟩
  locks _ := ⟨Or.inl ⟨rfl, fun _ ↦ rfl⟩, fun _ ↦ by simp [initial]⟩

end Jungle.Threads
