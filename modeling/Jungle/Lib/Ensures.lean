import Mathlib.Logic.Basic

/-!
# Calls that may fault

`Ensures call post` says that what the call returns, if it returns, meets the postcondition. It is proved
along the call: a step is used through its own postcondition (`Ensures.bind`), or skipped.
-/

set_option autoImplicit false
set_option relaxedAutoImplicit false

namespace Jungle.Lib

variable {α β : Type} {call : Option α} {next : α → Option β} {post post' : α → Prop} {Q : β → Prop}

/-- The result of a call that does not fault meets the postcondition. -/
def Ensures (call : Option α) (post : α → Prop) : Prop := ∀ a, call = some a → post a

namespace Ensures

theorem pure {a : α} (h : post a) : Ensures (some a) post := by
  rintro _ ⟨⟩
  exact h

theorem mono (h : Ensures call post) (hpost : ∀ a, post a → post' a) : Ensures call post' :=
  fun a ha ↦ hpost a (h a ha)

/-- A step, and what follows it where its postcondition holds. -/
theorem bind (h : Ensures call post) (hnext : ∀ a, post a → Ensures (next a) Q) :
    Ensures (call >>= next) Q := by
  intro b hb
  obtain ⟨a, ha, hb⟩ := Option.bind_eq_some_iff.mp hb
  exact hnext a (h a ha) b hb

/-- A step of which nothing is used. -/
theorem skip (hnext : ∀ a, Ensures (next a) Q) : Ensures (call >>= next) Q :=
  fun b hb ↦ by
    obtain ⟨a, -, hb⟩ := Option.bind_eq_some_iff.mp hb
    exact hnext a b hb

end Ensures

end Jungle.Lib
