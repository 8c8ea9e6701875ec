import Mathlib.Data.Nat.Notation

/-!
# Runs of a labelled transition system

`Run step s labels s'` says that the labels lead from one state to the other, one step after the
other. An invariant kept by every step holds along a run (`Run.invariant`), and a relation to an
abstract state that every step keeps leads to the abstract run (`Run.simulation`, and `Run.forward` where
the abstract steps are a relation); the abstract state may be the list of the labels so far (`Run.history`).
-/

set_option autoImplicit false
set_option relaxedAutoImplicit false

namespace Jungle.Lib

variable {State Label Abstract : Type*}

/-- The runs of a labelled transition system. -/
inductive Run (step : State → Label → State → Prop) : State → List Label → State → Prop
  | nil (s : State) : Run step s [] s
  | cons {s t u : State} {label : Label} {labels : List Label}
      (first : step s label t) (rest : Run step t labels u) : Run step s (label :: labels) u

namespace Run

variable {step : State → Label → State → Prop} {s t u : State} {label : Label}
  {labels labels' : List Label}

theorem single (h : step s label t) : Run step s [label] t := cons h (nil t)

theorem append (h : Run step s labels t) (h' : Run step t labels' u) :
    Run step s (labels ++ labels') u := by
  induction h with
  | nil s => exact h'
  | cons first _ ih => exact cons first (ih h')

theorem snoc (h : Run step s labels t) (hlast : step t label u) :
    Run step s (labels ++ [label]) u :=
  h.append (single hlast)

/-- What every step keeps holds along a run. -/
theorem invariant {inv : State → Prop} (hstep : ∀ s label t, inv s → step s label t → inv t)
    (h : Run step s labels t) (hinv : inv s) : inv t := by
  induction h with
  | nil s => exact hinv
  | cons first _ ih => exact ih (hstep _ _ _ hinv first)

/-- A relation to an abstract state that every step keeps leads to the abstract run. -/
theorem simulation {rel : State → Abstract → Prop} {next : Abstract → Label → Abstract}
    (hstep : ∀ s a label t, rel s a → step s label t → rel t (next a label))
    (h : Run step s labels t) {a : Abstract} (hrel : rel s a) :
    rel t (labels.foldl next a) := by
  induction h generalizing a with
  | nil s => exact hrel
  | cons first _ ih => exact ih (hstep _ _ _ _ hrel first)

/-- A relation to an abstract state such that every step has an abstract one leads to an abstract run. -/
theorem forward {rel : State → Abstract → Prop} {next : Abstract → Label → Abstract → Prop}
    (hstep : ∀ s a label t, rel s a → step s label t → ∃ c, next a label c ∧ rel t c)
    (h : Run step s labels t) {a : Abstract} (hrel : rel s a) : ∃ c, Run next a labels c ∧ rel t c := by
  induction h generalizing a with
  | nil s => exact ⟨a, nil a, hrel⟩
  | cons first _ ih =>
    obtain ⟨b, hfirst, hb⟩ := hstep _ _ _ _ hrel first
    obtain ⟨c, hrest, hc⟩ := ih hb
    exact ⟨c, cons hfirst hrest, hc⟩

/-- A relation to the labels so far that every step keeps relates the last state to all labels. -/
theorem history {rel : State → List Label → Prop}
    (hstep : ∀ s past label t, rel s past → step s label t → rel t (past ++ [label]))
    (h : Run step s labels t) (hrel : rel s []) : rel t labels := by
  have hgeneral : ∀ past, rel s past → rel t (past ++ labels) := by
    clear hrel
    induction h with
    | nil s =>
      intro past hpast
      rwa [List.append_nil]
    | cons first _ ih =>
      intro past hpast
      rw [List.append_cons]
      exact ih _ (hstep _ _ _ _ hpast first)
  exact hgeneral [] hrel

/-- A run of a system is a run of every system that has its steps. -/
theorem mono {step' : State → Label → State → Prop}
    (hstep : ∀ s label t, step s label t → step' s label t) (h : Run step s labels t) :
    Run step' s labels t := by
  induction h with
  | nil s => exact nil s
  | cons first _ ih => exact cons (hstep _ _ _ first) ih

end Run

end Jungle.Lib
