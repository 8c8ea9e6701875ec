import Jungle.MallocLab.FreeList

/-!
# The search for a block

`best_fit` walks through the free list and remembers the first block of the least size that is enough
(`Tightest`). It may leave the list at a block of exactly the size asked for, since no block behind
it is smaller and enough.
-/

set_option autoImplicit false
set_option relaxedAutoImplicit false

namespace Jungle.MallocLab

open Jungle.Lib

/-- `best` is the first of the listed blocks whose size is the least that is enough. -/
def Tightest (size : ℕ → ℕ) (asize : ℕ) (fl : List ℕ) (best : ℕ) : Prop :=
  ∃ front back, fl = front ++ best :: back ∧ asize ≤ size best ∧
    (∀ c ∈ front, asize ≤ size c → size best < size c) ∧
    ∀ c ∈ back, asize ≤ size c → size best ≤ size c

/-- `best` is the tightest of the listed blocks, or `NULL` where none is large enough. -/
def Found (size : ℕ → ℕ) (asize : ℕ) (fl : List ℕ) (best : ℕ) : Prop :=
  best = 0 ∧ (∀ c ∈ fl, size c < asize) ∨ Tightest size asize fl best

variable {s : State} {size : ℕ → ℕ} {asize best c : ℕ} {fl seen rest : List ℕ}

namespace Tightest

theorem mem (h : Tightest size asize fl best) : best ∈ fl := by
  obtain ⟨front, back, rfl, -⟩ := h
  simp

theorem enough (h : Tightest size asize fl best) : asize ≤ size best := by
  obtain ⟨front, back, -, henough, -⟩ := h
  exact henough

/-- No listed block that is large enough is smaller. -/
theorem le (h : Tightest size asize fl best) (hc : c ∈ fl) (henough : asize ≤ size c) :
    size best ≤ size c := by
  obtain ⟨front, back, rfl, -, hfront, hback⟩ := h
  rcases List.mem_append.mp hc with hc | hc
  · exact Nat.le_of_lt (hfront c hc henough)
  · rcases List.mem_cons.mp hc with rfl | hc
    · exact Nat.le_refl _
    · exact hback c hc henough

/-- A block that is not smaller leaves the tightest one. -/
theorem keep (h : Tightest size asize fl best) (hc : asize ≤ size c → size best ≤ size c) :
    Tightest size asize (fl ++ [c]) best := by
  obtain ⟨front, back, rfl, henough, hfront, hback⟩ := h
  refine ⟨front, back ++ [c], by simp, henough, hfront, fun d hd ↦ ?_⟩
  rcases List.mem_append.mp hd with hd | hd
  · exact hback d hd
  · rw [List.mem_singleton.mp hd]
    exact hc

/-- A block that is smaller than all others that are large enough. -/
theorem last (henough : asize ≤ size c) (hseen : ∀ d ∈ fl, asize ≤ size d → size c < size d) :
    Tightest size asize (fl ++ [c]) c :=
  ⟨fl, [], rfl, henough, hseen, fun _ hd ↦ absurd hd List.not_mem_nil⟩

/-- Blocks behind one of exactly the size asked for do not matter. -/
theorem append (h : Tightest size asize fl best) (hexact : size best = asize) (rest : List ℕ) :
    Tightest size asize (fl ++ rest) best := by
  obtain ⟨front, back, rfl, henough, hfront, hback⟩ := h
  refine ⟨front, back ++ rest, by simp, henough, hfront, fun d _ hd ↦ ?_⟩
  omega

end Tightest

/-- The block that is remembered after a look at another one. -/
def better (size : ℕ → ℕ) (asize best c : ℕ) : ℕ :=
  if asize ≤ size c ∧ (best = 0 ∨ size c < size best) then c else best

theorem Found.step (h : Found size asize fl best) (hzero : ∀ d ∈ fl, d ≠ 0) :
    Found size asize (fl ++ [c]) (better size asize best c) := by
  unfold better
  rcases h with ⟨rfl, hnone⟩ | htightest
  · by_cases henough : asize ≤ size c
    · rw [if_pos ⟨henough, Or.inl rfl⟩]
      exact Or.inr (Tightest.last henough fun d hd hd' ↦ absurd hd' (Nat.not_le.mpr (hnone d hd)))
    · rw [if_neg fun hboth ↦ henough hboth.1]
      refine Or.inl ⟨rfl, fun d hd ↦ ?_⟩
      rcases List.mem_append.mp hd with hd | hd
      · exact hnone d hd
      · rw [List.mem_singleton.mp hd]
        exact Nat.not_le.mp henough
  · have hbest := hzero best htightest.mem
    by_cases hsmaller : asize ≤ size c ∧ (best = 0 ∨ size c < size best)
    · rw [if_pos hsmaller]
      refine Or.inr (Tightest.last hsmaller.1 fun d hd hd' ↦ ?_)
      exact Nat.lt_of_lt_of_le (hsmaller.2.resolve_left hbest) (htightest.le hd hd')
    · rw [if_neg hsmaller]
      refine Or.inr (htightest.keep fun henough ↦ Nat.not_lt.mp fun hless ↦ ?_)
      exact hsmaller ⟨henough, Or.inr hless⟩

/-- The next listed block, or `NULL` at the end. -/
theorem Linked.next (h : Linked s (seen ++ c :: rest)) (hc : c ≠ 0) (harena : InArena s c 8) :
    nextFree s c = some (rest.headD 0) := by
  have hlinks := h.links
  have hafter : s.after c = some (rest.headD 0) := by
    cases rest with
    | nil =>
      have hring : ring (seen ++ [c]) = (0 :: seen) ++ c :: 0 :: [] := by simp [ring]
      rw [hring] at hlinks
      exact hlinks.neighbours.1
    | cons d rest =>
      have hring : ring (seen ++ c :: d :: rest) = (0 :: seen) ++ c :: d :: (rest ++ [0]) := by
        simp [ring]
      rw [hring] at hlinks
      exact hlinks.neighbours.1
  rw [State.after, if_neg hc] at hafter
  rw [nextFree, load_eq harena]
  exact hafter

/-- The block that a round of the loop remembers. -/
theorem bind_better {Result : Type} (hbest : best ≠ 0 → getSize s (hdrp best) = some (size best))
    (henough : asize ≤ size c) (k : ℕ → Option Result) :
    (if best = 0 then (some c).bind k
      else ((getSize s (hdrp best)).map fun n ↦ if size c < n then c else best).bind k) =
        k (better size asize best c) := by
  unfold better
  by_cases hzero : best = 0
  · rw [if_pos hzero, if_pos ⟨henough, Or.inl hzero⟩, Option.bind_some]
  · rw [if_neg hzero, hbest hzero, Option.map_some, Option.bind_some]
    by_cases hless : size c < size best
    · rw [if_pos hless, if_pos ⟨henough, Or.inr hless⟩]
    · rw [if_neg hless, if_neg fun hboth ↦ hboth.2.elim hzero hless]

/-- A round of the loop leaves it at a block of exactly the size asked for. -/
theorem bestFitBody_eq (asize : ℕ) (hc : c ≠ 0) (hsize : getSize s (hdrp c) = some (size c))
    (hbest : best ≠ 0 → getSize s (hdrp best) = some (size best)) {next : ℕ}
    (hnext : nextFree s c = some next) :
    bestFitBody s asize (c, best) =
      if asize ≤ size c ∧ size c = asize then some (.inr (better size asize best c))
      else some (.inl (next, better size asize best c)) := by
  unfold bestFitBody
  dsimp only [Bind.bind]
  rw [if_neg hc, hsize, Option.bind_some]
  by_cases henough : asize ≤ size c
  · rw [if_pos henough]
    refine (bind_better hbest henough _).trans ?_
    by_cases hexact : size c = asize
    · rw [if_pos hexact, if_pos ⟨henough, hexact⟩]
      rfl
    · rw [if_neg hexact, if_neg fun hboth ↦ hexact hboth.2, hnext]
      rfl
  · have hsame : better size asize best c = best := if_neg fun hboth ↦ henough hboth.1
    rw [if_neg henough, if_neg fun hboth ↦ henough hboth.1, hnext, hsame]
    rfl

/-- The listed blocks follow each other from a pointer on, up to `NULL`. -/
inductive Follows (s : State) : ℕ → List ℕ → Prop
  | nil : Follows s 0 []
  | cons {c next : ℕ} {rest : List ℕ} (hc : c ≠ 0) (hnext : nextFree s c = some next)
      (hrest : Follows s next rest) : Follows s c (c :: rest)

theorem Follows.ne_zero {p : ℕ} (h : Follows s p fl) (hc : c ∈ fl) : c ≠ 0 := by
  induction h with
  | nil => exact absurd hc List.not_mem_nil
  | cons hhead _ _ ih =>
    rcases List.mem_cons.mp hc with rfl | hc
    · exact hhead
    · exact ih hc

/-- The loop looks at the rest of the list. -/
theorem bestFit_loop (hzero : ∀ c ∈ fl, c ≠ 0) (hsize : ∀ c ∈ fl, getSize s (hdrp c) = some (size c))
    {p : ℕ} (h : Follows s p rest) (hfl : fl = seen ++ rest) (hfound : Found size asize seen best) :
    ∃ result, Returns (fun fuel ↦ whileLoop (bestFitBody s asize) fuel (p, best)) result ∧
      Found size asize fl result := by
  induction h generalizing seen best with
  | nil =>
    rw [List.append_nil] at hfl
    have hbody : bestFitBody s asize (0, best) = some (.inr best) := rfl
    exact ⟨best, returns_leave hbody, hfl ▸ hfound⟩
  | @cons c next rest hc hnext hrest ih =>
    have hmem : c ∈ fl := by simp [hfl]
    have hseen : ∀ d ∈ seen, d ∈ fl := fun d hd ↦ by simp [hfl, hd]
    have hbest : best ≠ 0 → getSize s (hdrp best) = some (size best) := fun hne ↦
      hsize best (hseen best (hfound.resolve_left fun hnone ↦ hne hnone.1).mem)
    have hbody := bestFitBody_eq asize hc (hsize c hmem) hbest hnext
    have hstep := hfound.step (c := c) fun d hd ↦ hzero d (hseen d hd)
    have hfl' : fl = (seen ++ [c]) ++ rest := by simp [hfl]
    by_cases hexact : asize ≤ size c ∧ size c = asize
    · have htightest : Tightest size asize (seen ++ [c]) (better size asize best c) :=
        hstep.resolve_left fun hnone ↦ Nat.not_lt.mpr hexact.1 (hnone.2 c (by simp))
      have hle := htightest.le (c := c) (by simp) hexact.1
      rw [if_pos hexact] at hbody
      refine ⟨better size asize best c, returns_leave hbody, Or.inr ?_⟩
      rw [hfl']
      exact htightest.append (Nat.le_antisymm (hexact.2 ▸ hle) htightest.enough) rest
    · rw [if_neg hexact] at hbody
      obtain ⟨result, hreturns, hresult⟩ := ih hfl' hstep
      exact ⟨result, returns_continue hbody hreturns, hresult⟩

/-- `best_fit` finds the tightest block of a list that is followed forwards. -/
theorem bestFit_found (size : ℕ → ℕ) (h : Follows s s.freeListp fl)
    (hsize : ∀ c ∈ fl, getSize s (hdrp c) = some (size c)) (asize : ℕ) :
    ∃ best, Returns (fun fuel ↦ bestFit fuel s asize) best ∧ Found size asize fl best :=
  bestFit_loop (fun _ ↦ h.ne_zero) hsize h rfl
    (Or.inl ⟨rfl, fun _ hc ↦ absurd hc List.not_mem_nil⟩)

/-- A linked list is followed forwards. -/
theorem Linked.follows (hlinked : Linked s fl) (hcells : ∀ c ∈ fl, c ≠ 0 ∧ InArena s c 8) :
    Follows s s.freeListp fl := by
  have hrest : ∀ rest seen, fl = seen ++ rest → Follows s (rest.headD 0) rest := by
    intro rest
    induction rest with
    | nil => exact fun _ _ ↦ Follows.nil
    | cons c rest ih =>
      intro seen hfl
      have hc := hcells c (by simp [hfl])
      exact Follows.cons hc.1 (Linked.next (hfl ▸ hlinked) hc.1 hc.2) (ih (seen ++ [c]) (by simp [hfl]))
  rw [hlinked.head]
  exact hrest fl [] rfl

/-- `best_fit` returns the tightest listed block and changes nothing. -/
theorem bestFit_spec (size : ℕ → ℕ) (hlinked : Linked s fl) (hcells : ∀ c ∈ fl, c ≠ 0 ∧ InArena s c 8)
    (hsize : ∀ c ∈ fl, getSize s (hdrp c) = some (size c)) (asize : ℕ) :
    ∃ best, Returns (fun fuel ↦ bestFit fuel s asize) best ∧ Found size asize fl best :=
  bestFit_found size (hlinked.follows hcells) hsize asize

/-- `best_fit` returns `NULL` exactly when no listed block is large enough, and otherwise the first one of the
least size that is enough. -/
theorem bestFit_tightest (size : ℕ → ℕ) (h : Follows s s.freeListp fl)
    (hsize : ∀ c ∈ fl, getSize s (hdrp c) = some (size c)) (asize : ℕ) :
    ∃ best, Returns (fun fuel ↦ bestFit fuel s asize) best ∧
      (best = 0 ↔ ∀ c ∈ fl, size c < asize) ∧ (best ≠ 0 → Tightest size asize fl best) := by
  obtain ⟨best, hreturns, hfound⟩ := bestFit_found size h hsize asize
  refine ⟨best, hreturns, ?_, fun hne ↦ hfound.resolve_left fun hnone ↦ hne hnone.1⟩
  rcases hfound with hnone | htightest
  · exact iff_of_true hnone.1 hnone.2
  · refine iff_of_false (h.ne_zero htightest.mem) fun hsmall ↦ ?_
    exact Nat.not_lt.mpr htightest.enough (hsmall best htightest.mem)

/-- Two listed blocks, of 24 and of 40 bytes. -/
def listed : State where
  mem
    | 20 => 24
    | 24 => 48
    | 44 => 40
    | _ => 0
  startBrk := 8
  brk := 88
  freeListp := 24

theorem load_listed {p n : ℕ} (hle : 8 ≤ p) (hlt : p + n ≤ 96) :
    load listed p n = some (listed.mem.load p n) := by
  refine load_eq ⟨hle, Nat.le_trans hlt ?_⟩
  decide

/-- The first one is too small for 32 bytes. -/
theorem bestFit_tightest_listed : ∃ best, Returns (fun fuel ↦ bestFit fuel listed 32) best ∧
    (best = 0 ↔ ∀ c ∈ [24, 48], (if c = 24 then 24 else 40) < 32) ∧
      (best ≠ 0 → Tightest (fun c ↦ if c = 24 then 24 else 40) 32 [24, 48] best) := by
  refine bestFit_tightest (fun c ↦ if c = 24 then 24 else 40) ?_ (fun c hc ↦ ?_) 32
  · exact .cons (by decide) (load_listed (by decide) (by decide))
      (.cons (by decide) (load_listed (by decide) (by decide)) .nil)
  · rcases List.mem_pair.mp hc with rfl | rfl
    · exact congrArg (Option.map _) (load_listed (by decide) (by decide))
    · exact congrArg (Option.map _) (load_listed (by decide) (by decide))

end Jungle.MallocLab
