import Mathlib.Data.Option.Basic

/-!
# Calls that log events

A call returns a result or faults, and leaves a log of its events in order. The log is kept when the call
faults. A call without events is lifted; what a call returns does not depend on the log.
-/

set_option autoImplicit false
set_option relaxedAutoImplicit false

namespace Jungle.Lib

/-- The events of a call, and its result unless it faults. -/
structure Logged (Event Result : Type) where
  events : List Event
  result : Option Result

namespace Logged

variable {Event α β : Type}

instance : Monad (Logged Event) where
  pure a := ⟨[], some a⟩
  bind call next :=
    match call.result with
    | none => ⟨call.events, none⟩
    | some a => ⟨call.events ++ (next a).events, (next a).result⟩

/-- A call without events. -/
def lift (call : Option α) : Logged Event α := ⟨[], call⟩

instance : MonadLift Option (Logged Event) := ⟨lift⟩

/-- An event. -/
def event (e : Event) : Logged Event Unit := ⟨[e], some ()⟩

variable {call : Logged Event α} {next : α → Logged Event β} {a : α}

@[simp] theorem result_pure (a : α) : (pure a : Logged Event α).result = some a := rfl

@[simp] theorem events_pure (a : α) : (pure a : Logged Event α).events = [] := rfl

@[simp] theorem result_lift (call : Option α) :
    (liftM call : Logged Event α).result = call := rfl

@[simp] theorem events_lift (call : Option α) : (liftM call : Logged Event α).events = [] := rfl

/-- The results of a call and the next one go without the log. -/
@[simp] theorem result_bind (call : Logged Event α) (next : α → Logged Event β) :
    (call >>= next).result = call.result.bind fun a ↦ (next a).result := by
  obtain ⟨events, result⟩ := call
  cases result <;> rfl

/-- Two calls in a row return what they return without the log. -/
theorem bind_erases {plain : Option α} {next' : α → Option β} (h : call.result = plain)
    (hnext : ∀ a, (next a).result = next' a) : (call >>= next).result = plain >>= next' := by
  rw [result_bind, h]
  cases plain with
  | none => rfl
  | some a => exact hnext a

/-- A lifted call and the next one return what they return without the log. -/
theorem lift_bind_erases {plain : Option α} {next' : α → Option β}
    (hnext : ∀ a, (next a).result = next' a) :
    ((liftM plain : Logged Event α) >>= next).result = plain >>= next' :=
  bind_erases rfl hnext

theorem events_bind (h : call.result = some a) :
    (call >>= next).events = call.events ++ (next a).events := by
  obtain ⟨events, result⟩ := call
  obtain rfl : result = some a := h
  rfl

theorem events_bind_none (h : call.result = none) : (call >>= next).events = call.events := by
  obtain ⟨events, result⟩ := call
  obtain rfl : result = none := h
  rfl

/-! ### Properties of all events -/

/-- Every event of a call has a property. -/
def All (Q : Event → Prop) (call : Logged Event α) : Prop := ∀ e ∈ call.events, Q e

variable {Q : Event → Prop}

theorem all_pure (Q : Event → Prop) (a : α) : All Q (pure a : Logged Event α) :=
  fun _ he ↦ absurd he List.not_mem_nil

theorem all_lift (Q : Event → Prop) (plain : Option α) : All Q (liftM plain : Logged Event α) :=
  fun _ he ↦ absurd he List.not_mem_nil

theorem all_bind (h : All Q call) (hnext : ∀ a, call.result = some a → All Q (next a)) :
    All Q (call >>= next) := by
  intro e he
  cases hresult : call.result with
  | none =>
    rw [events_bind_none hresult] at he
    exact h e he
  | some a =>
    rw [events_bind hresult] at he
    exact (List.mem_append.mp he).elim (h e) (hnext a hresult e)

theorem All.of_bind (h : All Q (call >>= next)) : All Q call := by
  intro e he
  refine h e ?_
  cases hresult : call.result with
  | none => rwa [events_bind_none hresult]
  | some a =>
    rw [events_bind hresult]
    exact List.mem_append_left _ he

/-- A call without events in front of another one. -/
theorem all_lift_bind {plain : Option α} (hnext : ∀ a, plain = some a → All Q (next a)) :
    All Q ((liftM plain : Logged Event α) >>= next) :=
  all_bind (all_lift Q plain) hnext

/-- A call without events that returns. -/
theorem all_lift_bind_iff {plain : Option α} (h : plain = some a) :
    All Q ((liftM plain : Logged Event α) >>= next) ↔ All Q (next a) := by
  rw [All, events_bind (h : (liftM plain : Logged Event α).result = some a), events_lift,
    List.nil_append, All]

/-- A call with events that returns. -/
theorem all_bind_iff (h : call.result = some a) :
    All Q (call >>= next) ↔ All Q call ∧ All Q (next a) := by
  rw [All, events_bind h]
  exact List.forall_mem_append

end Logged

end Jungle.Lib
