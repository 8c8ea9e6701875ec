import Mathlib.Data.Nat.Notation

/-!
# Loops of imperative programs

`whileLoop` runs the body of a loop for a bounded number of rounds. A body faults with `none`,
goes on with `some (.inl state)` and leaves the loop with `some (.inr result)`. `Returns call
result` says that a call bounded in this way, as a loop or as a recursion, has the result for every
bound that is large enough; a loop in the body of another one has a bound of its own (`NestedReturns`).
-/

set_option autoImplicit false
set_option relaxedAutoImplicit false

namespace Jungle.Lib

variable {State Result : Type*}

/-- A call has the result for every large enough bound on its rounds. -/
def Returns (call : ℕ → Option Result) (result : Result) : Prop :=
  ∃ bound, ∀ fuel, bound < fuel → call fuel = some result

/-- A call has one result at most. -/
theorem Returns.unique {call : ℕ → Option Result} {result result' : Result}
    (h : Returns call result) (h' : Returns call result') : result = result' := by
  obtain ⟨bound, hbound⟩ := h
  obtain ⟨bound', hbound'⟩ := h'
  have hleft := hbound (bound + bound' + 1) (by omega)
  have hright := hbound' (bound + bound' + 1) (by omega)
  exact Option.some.inj (hleft.symm.trans hright)

/-- A call that meets a specification for every large enough bound returns, if the specification
leaves one result only. -/
theorem exists_returns {call : ℕ → Option Result} {post : Result → Prop} (bound : ℕ)
    (hcall : ∀ fuel, bound < fuel → ∃ result, call fuel = some result ∧ post result)
    (hunique : ∀ result result', post result → post result' → result = result') :
    ∃ result, Returns call result ∧ post result := by
  obtain ⟨result, -, hpost⟩ := hcall (bound + 1) (Nat.lt_succ_self _)
  refine ⟨result, ⟨bound, fun fuel hfuel ↦ ?_⟩, hpost⟩
  obtain ⟨result', heq, hpost'⟩ := hcall fuel hfuel
  rw [heq, hunique result' result hpost' hpost]

/-- A call without a bound returns what it returns. -/
theorem returns_const {call : Option Result} {result : Result} (h : call = some result) :
    Returns (fun _ ↦ call) result :=
  ⟨0, fun _ _ ↦ h⟩

/-- A call followed by another one returns what that returns. -/
theorem Returns.bind {call : ℕ → Option State} {next : ℕ → State → Option Result} {s : State}
    {result : Result} (h : Returns call s) (hnext : Returns (fun fuel ↦ next fuel s) result) :
    Returns (fun fuel ↦ (call fuel).bind (next fuel)) result := by
  obtain ⟨bound, hbound⟩ := h
  obtain ⟨bound', hbound'⟩ := hnext
  refine ⟨bound + bound', fun fuel hfuel ↦ ?_⟩
  change (call fuel).bind (next fuel) = some result
  rw [hbound fuel (by omega), Option.bind_some]
  exact hbound' fuel (by omega)

/-- A larger bound does not change what a call returns. -/
def Settles (call : ℕ → Option Result) : Prop :=
  ∀ fuel fuel' result, fuel ≤ fuel' → call fuel = some result → call fuel' = some result

theorem Settles.returns {call : ℕ → Option Result} (h : Settles call) {fuel : ℕ} {result : Result}
    (hcall : call fuel = some result) : Returns call result :=
  ⟨fuel, fun fuel' hfuel ↦ h fuel fuel' result (Nat.le_of_lt hfuel) hcall⟩

theorem settles_const (call : Option Result) : Settles fun _ ↦ call :=
  fun _ _ _ _ h ↦ h

theorem Settles.bind {call : ℕ → Option State} {next : ℕ → State → Option Result}
    (h : Settles call) (hnext : ∀ s, Settles fun fuel ↦ next fuel s) :
    Settles fun fuel ↦ (call fuel).bind (next fuel) := by
  intro fuel fuel' result hle hcall
  obtain ⟨s, hs, hresult⟩ := Option.bind_eq_some_iff.mp hcall
  exact Option.bind_eq_some_iff.mpr ⟨s, h fuel fuel' s hle hs, hnext s fuel fuel' result hle hresult⟩

theorem Settles.ite {cond : Prop} [Decidable cond] {call call' : ℕ → Option Result}
    (h : Settles call) (h' : Settles call') :
    Settles fun fuel ↦ if cond then call fuel else call' fuel := by
  by_cases hcond : cond
  · simpa only [if_pos hcond] using h
  · simpa only [if_neg hcond] using h'

/-- At most `fuel` rounds of a loop with the given body. -/
def whileLoop (body : State → Option (State ⊕ Result)) : ℕ → State → Option Result
  | 0, _ => none
  | fuel + 1, s =>
    match body s with
    | none => none
    | some (.inl s') => whileLoop body fuel s'
    | some (.inr result) => some result

variable {body : State → Option (State ⊕ Result)}

/-- A larger bound does not change what a loop returns. -/
theorem settles_whileLoop (s : State) : Settles fun fuel ↦ whileLoop body fuel s := by
  intro fuel fuel' result hle h
  induction fuel generalizing s fuel' with
  | zero => exact absurd h (Option.some_ne_none result).symm
  | succ fuel ih =>
    obtain ⟨fuel', rfl⟩ : ∃ n, fuel' = n + 1 := ⟨fuel' - 1, by omega⟩
    simp only [whileLoop] at h ⊢
    cases hbody : body s with
    | none =>
      rw [hbody] at h
      exact absurd h (Option.some_ne_none result).symm
    | some next =>
      rw [hbody] at h
      cases next with
      | inl s' => exact ih s' fuel' (by omega) h
      | inr result' => exact h

/-- A round that goes on. -/
theorem whileLoop_continue {s s' : State} (h : body s = some (.inl s')) (fuel : ℕ) :
    whileLoop body (fuel + 1) s = whileLoop body fuel s' := by
  simp only [whileLoop, h]

/-- A round that leaves the loop. -/
theorem whileLoop_leave {s : State} {result : Result} (h : body s = some (.inr result))
    (fuel : ℕ) : whileLoop body (fuel + 1) s = some result := by
  simp only [whileLoop, h]

/-- A loop that is left at once returns. -/
theorem returns_leave {s : State} {result : Result} (h : body s = some (.inr result)) :
    Returns (fun fuel ↦ whileLoop body fuel s) result := by
  refine ⟨0, fun fuel hfuel ↦ ?_⟩
  obtain ⟨fuel, rfl⟩ : ∃ n, fuel = n + 1 := ⟨fuel - 1, by omega⟩
  exact whileLoop_leave h fuel

/-- A loop returns what it returns after a round. -/
theorem returns_continue {s s' : State} {result : Result} (h : body s = some (.inl s'))
    (hrest : Returns (fun fuel ↦ whileLoop body fuel s') result) :
    Returns (fun fuel ↦ whileLoop body fuel s) result := by
  obtain ⟨bound, hbound⟩ := hrest
  refine ⟨bound + 1, fun fuel hfuel ↦ ?_⟩
  obtain ⟨fuel, rfl⟩ : ∃ n, fuel = n + 1 := ⟨fuel - 1, by omega⟩
  exact (whileLoop_continue h fuel).trans (hbound fuel (by omega))

/-- A loop that goes on returns what it returns after the round. -/
theorem returns_continue_iff {s s' : State} {result : Result} (h : body s = some (.inl s')) :
    Returns (fun fuel ↦ whileLoop body fuel s) result ↔
      Returns (fun fuel ↦ whileLoop body fuel s') result := by
  refine ⟨fun ⟨bound, hbound⟩ ↦ ⟨bound, fun fuel hfuel ↦ ?_⟩, returns_continue h⟩
  exact (whileLoop_continue h fuel).symm.trans (hbound (fuel + 1) (by omega))

/-- A loop does not return from a round that faults. -/
theorem not_returns_of_fault {s : State} (h : body s = none) (result : Result) :
    ¬Returns (fun fuel ↦ whileLoop body fuel s) result := by
  rintro ⟨bound, hbound⟩
  have hcall : whileLoop body (bound + 1) s = some result := hbound _ (Nat.lt_succ_self bound)
  simp only [whileLoop, h] at hcall
  exact absurd hcall (Option.some_ne_none result).symm

/-- A loop with a bounded body has the result for all large enough bounds on its rounds and on those of
the body. -/
def NestedReturns (body : ℕ → State → Option (State ⊕ Result)) (s : State) (result : Result) : Prop :=
  ∃ bound, ∀ inner, bound < inner → ∀ fuel, bound < fuel →
    whileLoop (body inner) fuel s = some result

section Nested

variable {body : ℕ → State → Option (State ⊕ Result)} {s s' : State} {result : Result}

theorem NestedReturns.returns (h : NestedReturns body s result) :
    Returns (fun fuel ↦ whileLoop (body fuel) fuel s) result := by
  obtain ⟨bound, hbound⟩ := h
  exact ⟨bound, fun fuel hfuel ↦ hbound fuel hfuel fuel hfuel⟩

theorem nested_leave (h : Returns (fun fuel ↦ body fuel s) (.inr result)) :
    NestedReturns body s result := by
  obtain ⟨bound, hbound⟩ := h
  refine ⟨bound, fun inner hinner fuel hfuel ↦ ?_⟩
  obtain ⟨fuel, rfl⟩ : ∃ n, fuel = n + 1 := ⟨fuel - 1, by omega⟩
  exact whileLoop_leave (hbound inner hinner) fuel

theorem nested_continue (h : Returns (fun fuel ↦ body fuel s) (.inl s'))
    (hrest : NestedReturns body s' result) : NestedReturns body s result := by
  obtain ⟨bound, hbound⟩ := h
  obtain ⟨bound', hbound'⟩ := hrest
  refine ⟨bound + bound' + 1, fun inner hinner fuel hfuel ↦ ?_⟩
  obtain ⟨fuel, rfl⟩ : ∃ n, fuel = n + 1 := ⟨fuel - 1, by omega⟩
  exact (whileLoop_continue (hbound inner (by omega)) fuel).trans
    (hbound' inner (by omega) fuel (by omega))

end Nested

/-- A loop does not end from a round that leaves the state as it is. -/
theorem whileLoop_stuck {s : State} (h : body s = some (.inl s)) (fuel : ℕ) :
    whileLoop body fuel s = none := by
  induction fuel with
  | zero => rfl
  | succ fuel ih => rw [whileLoop_continue h, ih]

/-- The rule of partial correctness for loops: what every round keeps gives what the loop returns. -/
theorem whileLoop_invariant {inv : State → Prop} {post : Result → Prop}
    (hgo : ∀ s s', inv s → body s = some (.inl s') → inv s')
    (hleave : ∀ s result, inv s → body s = some (.inr result) → post result)
    {fuel : ℕ} {s : State} {result : Result} (hinv : inv s)
    (h : whileLoop body fuel s = some result) : post result := by
  induction fuel generalizing s with
  | zero => exact absurd h (Option.some_ne_none result).symm
  | succ fuel ih =>
    rw [whileLoop] at h
    split at h
    case h_1 => exact absurd h (Option.some_ne_none result).symm
    case h_2 s' hbody => exact ih (hgo s s' hinv hbody) h
    case h_3 result' hbody =>
      obtain rfl := Option.some.inj h
      exact hleave s _ hinv hbody

/-- Rounds of a loop that goes on lead from one state to the other. -/
inductive Rounds (body : State → Option (State ⊕ Result)) : State → State → Prop
  | refl (s : State) : Rounds body s s
  | head {s t u : State} (first : body s = some (.inl t)) (rest : Rounds body t u) :
      Rounds body s u

/-- What every round keeps holds in every state of the loop. -/
theorem Rounds.invariant {s t : State} (h : Rounds body s t) {inv : State → Prop}
    (hbody : ∀ s t, inv s → body s = some (.inl t) → inv t) (hinv : inv s) : inv t := by
  induction h with
  | refl s => exact hinv
  | head first _ ih => exact ih (hbody _ _ hinv first)

/-- So many rounds lead from one state to the other. -/
def Leads (body : State → Option (State ⊕ Result)) (count : ℕ) (s t : State) : Prop :=
  ∀ fuel, whileLoop body (fuel + count) s = whileLoop body fuel t

theorem Leads.refl (s : State) : Leads body 0 s s := fun _ ↦ rfl

theorem Leads.single {s t : State} (h : body s = some (.inl t)) : Leads body 1 s t :=
  whileLoop_continue h

theorem Leads.trans {m n : ℕ} {s t u : State} (h : Leads body m s t) (h' : Leads body n t u) :
    Leads body (m + n) s u := fun fuel ↦ by
  rw [Nat.add_comm m, ← Nat.add_assoc, h, h']

/-- Two states with the same next round lead to the same states. -/
theorem Leads.congr {count : ℕ} {s t u : State} (h : Leads body count t u) (hpos : 0 < count)
    (hbody : body s = body t) : Leads body count s u := fun fuel ↦ by
  obtain ⟨count, rfl⟩ : ∃ n, count = n + 1 := ⟨count - 1, by omega⟩
  rw [← h fuel, ← Nat.add_assoc]
  simp only [whileLoop, hbody]

/-- Rounds that lead to the end of the loop. -/
theorem Leads.whileLoop_eq {count fuel : ℕ} {s t : State} {result : Result}
    (h : Leads body count s t) (hleave : body t = some (.inr result)) (hfuel : count < fuel) :
    whileLoop body fuel s = some result := by
  obtain ⟨rest, rfl⟩ : ∃ n, fuel = n + 1 + count := ⟨fuel - count - 1, by omega⟩
  rw [h, whileLoop_leave hleave]

end Jungle.Lib
