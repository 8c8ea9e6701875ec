import Jungle.Lib.Store

/-!
# Forests in a store

The cells of a store have children, by the numbers of their slots. `Below n` says which cells a walk of at
most `n` steps reaches. In a `Forest` every cell has a height, its children have the next smaller one, and
no two slots lead to the same child, so that what is below two cells of one height is apart
(`Forest.apart`). A call clears a part of a store if it gives back the cells of this part and changes no
other one (`Clears`), whatever else has been given back before; a sequence of calls clears what they clear,
if it is apart (`Clears.sequence`).
-/

set_option autoImplicit false
set_option relaxedAutoImplicit false

namespace Jungle.Lib

variable {Cell State Index : Type*}

/-! ### What is below a cell -/

section Below

variable (child : Cell → ℕ → Option ℕ) (width : ℕ)

/-- The slot of the cell at `p` leads to the cell at `q`. -/
def HasChild (store : Store Cell) (p i q : ℕ) : Prop :=
  ∃ cell, store p = some cell ∧ i < width ∧ child cell i = some q

/-- The cells that a walk of at most so many steps reaches. -/
def Below (store : Store Cell) : ℕ → ℕ → ℕ → Prop
  | 0, p, q => q = p
  | n + 1, p, q => q = p ∨ ∃ i c, HasChild child width store p i c ∧ Below store n c q

/-- The kinds of the cells are their heights: the children have the next smaller one, and different slots
have different children. -/
structure Forest (store : Store Cell) (kind : ℕ → ℕ → Prop) : Prop where
  used : ∀ n p, kind n p → (store p).isSome
  height : ∀ n m p, kind n p → kind m p → n = m
  next : ∀ n p i q, kind (n + 1) p → HasChild child width store p i q → kind n q
  single : ∀ n m p q i j c, kind (n + 1) p → kind (m + 1) q → HasChild child width store p i c →
    HasChild child width store q j c → p = q ∧ i = j

variable {child width} {store store' : Store Cell} {kind : ℕ → ℕ → Prop} {n p q r : ℕ}

/-- What is below a cell does not change where the cells do not. -/
theorem Below.congr (hsame : ∀ q, Below child width store n p q → store' q = store q) :
    Below child width store' n p q ↔ Below child width store n p q := by
  induction n generalizing p with
  | zero => exact Iff.rfl
  | succ n ih =>
    have hp : store' p = store p := hsame p (Or.inl rfl)
    refine or_congr_right (exists_congr fun i ↦ exists_congr fun c ↦ ?_)
    have hleads : HasChild child width store' p i c ↔ HasChild child width store p i c := by
      unfold HasChild
      rw [hp]
    rw [hleads]
    exact and_congr_right fun hchild ↦ ih fun q hq ↦ hsame q (Or.inr ⟨i, c, hchild, hq⟩)

namespace Forest

/-- What is below a cell has a kind of the same height or a smaller one. -/
theorem below_kind (h : Forest child width store kind) (hp : kind n p) (hq : Below child width store n p q) :
    ∃ m ≤ n, kind m q ∧ (m = n → q = p) := by
  induction n generalizing p with
  | zero =>
    obtain rfl : q = p := hq
    exact ⟨0, Nat.le_refl 0, hp, fun _ ↦ rfl⟩
  | succ n ih =>
    rcases hq with rfl | ⟨i, c, hleads, hq⟩
    · exact ⟨n + 1, Nat.le_refl _, hp, fun _ ↦ rfl⟩
    · obtain ⟨m, hm, hkind, -⟩ := ih (h.next n p i c hp hleads) hq
      exact ⟨m, Nat.le_succ_of_le hm, hkind, fun heq ↦ absurd (heq ▸ hm : n + 1 ≤ n) (Nat.not_succ_le_self n)⟩

/-- What is below two cells of one height is apart. -/
theorem apart (h : Forest child width store kind) (hp : kind n p) (hq : kind n q)
    (hr : Below child width store n p r) (hr' : Below child width store n q r) : p = q := by
  induction n generalizing p q with
  | zero =>
    obtain rfl : r = p := hr
    exact hr'
  | succ n ih =>
    rcases hr with rfl | ⟨i, c, hleads, hr⟩
    · obtain ⟨m, -, hm, htop⟩ := h.below_kind hq hr'
      exact htop (h.height m (n + 1) r hm hp)
    · have hc := h.next n p i c hp hleads
      rcases hr' with rfl | ⟨j, d, hleads', hr'⟩
      · obtain ⟨m, hle, hm, -⟩ := h.below_kind hc hr
        obtain rfl := h.height m (n + 1) r hm hq
        exact absurd hle (Nat.not_succ_le_self n)
      · obtain rfl := ih hc (h.next n q j d hq hleads') hr hr'
        exact (h.single n n p q i j c hp hq hleads hleads').1

/-- What is below the children of a cell is apart, and the cell is not there. -/
theorem apart_children (h : Forest child width store kind) (hp : kind (n + 1) p) {i j c d : ℕ}
    (hi : HasChild child width store p i c) (hj : HasChild child width store p j d)
    (hr : Below child width store n c r) (hr' : Below child width store n d r) : i = j := by
  obtain rfl := h.apart (h.next n p i c hp hi) (h.next n p j d hp hj) hr hr'
  exact (h.single n n p p i j c hp hp hi hj).2

theorem not_below_child (h : Forest child width store kind) (hp : kind (n + 1) p) {i c : ℕ}
    (hi : HasChild child width store p i c) : ¬Below child width store n c p := by
  intro hbelow
  obtain ⟨m, hle, hm, -⟩ := h.below_kind (h.next n p i c hp hi) hbelow
  obtain rfl := h.height m (n + 1) p hm hp
  exact absurd hle (Nat.not_succ_le_self n)

end Forest

end Below

/-! ### Clearing -/

section Clears

variable {view : State → Store Cell} {store : Store Cell} {keep R R' : ℕ → Prop} {a : ℕ}
  {call call' : State → Option State}

/-- Where the cells of `keep` and of the part are as in the store, the call gives back the cells of the part and
changes no other one. -/
def Clears (view : State → Store Cell) (store : Store Cell) (keep R : ℕ → Prop)
    (call : State → Option State) : Prop :=
  ∀ s, (∀ p, keep p ∨ R p → view s p = store p) → ∃ s', call s = some s' ∧
    (∀ p, R p → view s' p = none) ∧ ∀ p, ¬R p → view s' p = view s p

/-- The part may be described in another way. -/
theorem Clears.congr (h : Clears view store keep R call) (hiff : ∀ p, R' p ↔ R p) :
    Clears view store keep R' call := by
  obtain rfl : R' = R := funext fun p ↦ propext (hiff p)
  exact h

/-- Calls one after the other. -/
theorem Clears.sequence {calls : Index → State → Option State} {part : Index → ℕ → Prop} (indices : List Index)
    (h : ∀ i ∈ indices, Clears view store keep (part i) (calls i))
    (hkeep : ∀ i ∈ indices, ∀ p, part i p → ¬keep p)
    (hapart : indices.Pairwise fun i j ↦ ∀ p, part i p → ¬part j p) :
    Clears view store keep (fun p ↦ ∃ i ∈ indices, part i p)
      fun s ↦ indices.foldlM (fun s i ↦ calls i s) s := by
  induction indices with
  | nil =>
    intro s _
    refine ⟨s, rfl, fun p hp ↦ ?_, fun _ _ ↦ rfl⟩
    obtain ⟨i, hi, -⟩ := hp
    exact absurd hi List.not_mem_nil
  | cons i indices ih =>
    intro s hs
    rw [List.pairwise_cons] at hapart
    obtain ⟨s₁, hfirst, hgone, hsame⟩ := h i List.mem_cons_self s fun p hp ↦
      hs p (hp.imp_right fun hpart ↦ ⟨i, List.mem_cons_self, hpart⟩)
    have hs₁ : ∀ p, keep p ∨ (∃ j ∈ indices, part j p) → view s₁ p = store p := by
      intro p hp
      have hout : ¬part i p := by
        intro hpart
        rcases hp with hp | ⟨j, hj, hp⟩
        · exact hkeep i List.mem_cons_self p hpart hp
        · exact hapart.1 j hj p hpart hp
      rw [hsame p hout]
      refine hs p (hp.imp_right fun hlater ↦ ?_)
      obtain ⟨j, hj, hpart⟩ := hlater
      exact ⟨j, List.mem_cons_of_mem i hj, hpart⟩
    obtain ⟨s₂, hrest, hgone₂, hsame₂⟩ := ih (fun j hj ↦ h j (List.mem_cons_of_mem i hj))
      (fun j hj ↦ hkeep j (List.mem_cons_of_mem i hj)) hapart.2 s₁ hs₁
    refine ⟨s₂, ?_, fun p hp ↦ ?_, fun p hp ↦ ?_⟩
    · change (calls i s).bind _ = _
      rw [hfirst]
      exact hrest
    · by_cases hlater : ∃ j ∈ indices, part j p
      · exact hgone₂ p hlater
      · obtain ⟨j, hj, hpart⟩ := hp
        rcases List.mem_cons.mp hj with rfl | hj
        · rw [hsame₂ p hlater, hgone p hpart]
        · exact absurd ⟨j, hj, hpart⟩ hlater
    · have hlater : ¬∃ j ∈ indices, part j p := by
        rintro ⟨j, hj, hpart⟩
        exact hp ⟨j, List.mem_cons_of_mem i hj, hpart⟩
      rw [hsame₂ p hlater, hsame p fun hpart ↦ hp ⟨i, List.mem_cons_self, hpart⟩]

/-- A call that reads a cell, followed by one that gives the cell back. -/
theorem Clears.last (h : Clears view store (· = a) R call)
    (hlast : Clears view store (fun _ ↦ False) (· = a) call') (ha : ¬R a) :
    Clears view store (fun _ ↦ False) (fun p ↦ p = a ∨ R p) fun s ↦ (call s).bind call' := by
  intro s hs
  obtain ⟨s₁, hfirst, hgone, hsame⟩ := h s fun p hp ↦ hs p (Or.inr hp)
  obtain ⟨s₂, hrest, hgone₂, hsame₂⟩ := hlast s₁ fun p hp ↦ by
    obtain rfl := hp.resolve_left id
    rw [hsame p ha]
    exact hs p (Or.inr (Or.inl rfl))
  refine ⟨s₂, ?_, fun p hp ↦ ?_, fun p hp ↦ ?_⟩
  · change (call s).bind call' = _
    rw [hfirst]
    exact hrest
  · by_cases heq : p = a
    · exact hgone₂ p heq
    · rw [hsame₂ p heq, hgone p (hp.resolve_left heq)]
  · rw [not_or] at hp
    rw [hsame₂ p hp.1, hsame p hp.2]

end Clears

end Jungle.Lib
