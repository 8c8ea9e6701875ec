import Mathlib.Data.List.SplitBy

/-!
# Natural merge sort

A list splits into maximal runs of neighbours that are in order. A pass merges the first run with the
second, the third with the fourth, and so on. A pass permutes the list and keeps the order of any two
items that are in order already, so that items that are in order both ways never change places. What a
pass merges is in order, so the next pass finds at most so many runs: passes end in a list of one run.
-/

set_option autoImplicit false
set_option relaxedAutoImplicit false

namespace Jungle.Lib

variable {α : Type*}

/-- Merges neighbouring runs in pairs. -/
def mergePairs (le : α → α → Bool) : List (List α) → List (List α)
  | r :: r' :: rs => List.merge r r' le :: mergePairs le rs
  | [r] => [r]
  | [] => []

/-- The runs of a list. -/
def runs (le : α → α → Bool) (l : List α) : List (List α) := l.splitBy le

/-- A pass over a list. -/
def mergePass (le : α → α → Bool) (l : List α) : List α := (mergePairs le (runs le l)).flatten

/-- The list is a permutation that keeps any two items in order that are in order already. -/
structure KeepsOrder (le : α → α → Bool) (l l' : List α) : Prop where
  perm : l'.Perm l
  pair : ∀ a b, le a b → [a, b].Sublist l → [a, b].Sublist l'

variable {le : α → α → Bool} {l l' l'' m m' r r' : List α} {rs : List (List α)} {a b : α}

/-! ### Keeping the order -/

theorem KeepsOrder.refl (le : α → α → Bool) (l : List α) : KeepsOrder le l l :=
  ⟨List.Perm.refl l, fun _ _ _ h ↦ h⟩

theorem KeepsOrder.trans (h : KeepsOrder le l l') (h' : KeepsOrder le l' l'') : KeepsOrder le l l'' :=
  ⟨h'.perm.trans h.perm, fun a b hle hsub ↦ h'.pair a b hle (h.pair a b hle hsub)⟩

/-- Two items of a list of two parts. -/
theorem pair_sublist_append : [a, b].Sublist (l ++ m) ↔
    [a, b].Sublist l ∨ (a ∈ l ∧ b ∈ m) ∨ [a, b].Sublist m := by
  constructor
  · intro h
    obtain ⟨p, q, hpq, hp, hq⟩ := List.sublist_append_iff.mp h
    match p, hpq with
    | [], hpq => exact Or.inr (Or.inr (hpq ▸ hq))
    | [c], hpq =>
      obtain ⟨rfl, rfl⟩ := List.cons.inj hpq
      exact Or.inr (Or.inl ⟨List.singleton_sublist.mp hp, List.singleton_sublist.mp hq⟩)
    | c :: d :: p, hpq =>
      have hlead : [a, b] = c :: d :: p := by
        have hnil : p ++ q = [] := (List.cons.inj (List.cons.inj hpq).2).2.symm
        rw [hpq, (List.append_eq_nil_iff.mp hnil).1, (List.append_eq_nil_iff.mp hnil).2,
          List.append_nil]
      exact Or.inl (hlead ▸ hp)
  · rintro (h | ⟨ha, hb⟩ | h)
    · exact h.trans (List.sublist_append_left l m)
    · exact (List.singleton_sublist.mpr ha).append (List.singleton_sublist.mpr hb)
    · exact h.trans (List.sublist_append_right l m)

theorem KeepsOrder.append (h : KeepsOrder le l l') (h' : KeepsOrder le m m') :
    KeepsOrder le (l ++ m) (l' ++ m') where
  perm := h.perm.append h'.perm
  pair a b hle hsub := by
    rw [pair_sublist_append] at hsub ⊢
    rcases hsub with hsub | ⟨ha, hb⟩ | hsub
    · exact Or.inl (h.pair a b hle hsub)
    · exact Or.inr (Or.inl ⟨h.perm.mem_iff.mpr ha, h'.perm.mem_iff.mpr hb⟩)
    · exact Or.inr (Or.inr (h'.pair a b hle hsub))

/-- An item moves in front of items that are not in order with it. -/
theorem keepsOrder_front (l m : List α) (hout : ∀ a ∈ l, le a b = false) :
    KeepsOrder le (l ++ b :: m) (b :: (l ++ m)) where
  perm := List.perm_middle.symm
  pair c d hle hsub := by
    rw [List.cons_sublist_cons', pair_sublist_append]
    rw [pair_sublist_append, List.cons_sublist_cons'] at hsub
    rcases hsub with hsub | ⟨hc, hd⟩ | hsub | ⟨rfl, hd⟩
    · exact Or.inl (Or.inl hsub)
    · rcases List.mem_cons.mp hd with rfl | hd
      · rw [hout c hc] at hle
        exact absurd hle Bool.false_ne_true
      · exact Or.inl (Or.inr (Or.inl ⟨hc, hd⟩))
    · exact Or.inl (Or.inr (Or.inr hsub))
    · exact Or.inr ⟨rfl, hd.trans (List.sublist_append_right l m)⟩

/-! ### Runs -/

theorem length_mergePairs (le : α → α → Bool) :
    ∀ rs : List (List α), (mergePairs le rs).length = (rs.length + 1) / 2
  | [] => by simp [mergePairs]
  | [_] => by simp [mergePairs]
  | _ :: _ :: rs => by
    simp only [mergePairs, List.length_cons, length_mergePairs le rs]
    omega

/-- The first run and those of the rest of the list. -/
theorem runs_cons (h : runs le l = r :: rs) : l = r ++ rs.flatten ∧ r ≠ [] ∧
    r.IsChain (fun a b ↦ le a b) ∧ runs le rs.flatten = rs ∧
      ∀ x ∈ r.getLast?, ∀ y ∈ rs.flatten.head?, le x y = false := by
  obtain ⟨hflat, hnil, hchain, hapart⟩ := List.splitBy_eq_iff.mp h
  rw [List.mem_cons, not_or] at hnil
  refine ⟨hflat, Ne.symm hnil.1, hchain r List.mem_cons_self, List.splitBy_eq_iff.mpr
    ⟨rfl, hnil.2, fun m hm ↦ hchain m (List.mem_cons_of_mem r hm), hapart.tail⟩, fun x hx y hy ↦ ?_⟩
  cases rs with
  | nil => exact absurd hy (by simp)
  | cons r' rs =>
    obtain ⟨ha, hb, hle⟩ := (List.isChain_cons_cons.mp hapart).1
    rw [List.flatten_cons, List.head?_append_of_ne_nil _ hb] at hy
    rwa [List.getLast_of_mem_getLast? hx, List.head_of_mem_head? hy] at hle

theorem length_runs_cons_cons (a b : α) (l : List α) : (runs le (a :: b :: l)).length =
    (runs le (b :: l)).length + if le a b then 0 else 1 := by
  split_ifs with hab
  · cases hruns : runs le (b :: l) with
    | nil => exact absurd (List.splitBy_eq_nil.mp hruns) (List.cons_ne_nil b l)
    | cons r rs =>
      obtain ⟨hflat, hne, hchain, hrest, hapart⟩ := runs_cons hruns
      obtain ⟨c, r, rfl⟩ := List.exists_cons_of_ne_nil hne
      obtain ⟨rfl, hl⟩ := List.cons.inj hflat
      replace hl : l = r ++ rs.flatten := hl
      have hlonger : (a :: b :: r).IsChain fun a b ↦ le a b := List.isChain_cons_cons.mpr ⟨hab, hchain⟩
      have hsplit := List.splitBy_append (r := le) (l := a :: b :: r) (m := rs.flatten) hapart
      rw [List.splitBy_of_isChain (List.cons_ne_nil a _) hlonger] at hsplit
      rw [List.cons_append, List.cons_append] at hsplit
      rw [runs, hl, hsplit, List.length_append, ← runs, hrest]
      simp only [List.length_cons, List.length_nil]
      omega
  · have hsplit := List.splitBy_append_cons (r := le) (l := [a]) l fun x hx ↦ by
      obtain rfl := Option.some.inj hx
      simpa using hab
    rw [runs, ← List.singleton_append, hsplit, List.length_append, Nat.add_comm]
    rfl

/-- What is put in front of a list in order adds one run at most. -/
theorem length_runs_append_le (hr : r.IsChain fun a b ↦ le a b) (l : List α) :
    (runs le (r ++ l)).length ≤ (runs le l).length + 1 := by
  induction r with
  | nil => exact Nat.le_succ _
  | cons a r ih =>
    cases r with
    | nil =>
      cases l with
      | nil => simp [runs, List.splitBy_of_isChain]
      | cons b l =>
        rw [List.singleton_append, length_runs_cons_cons]
        split_ifs <;> omega
    | cons b r =>
      obtain ⟨hab, hr⟩ := List.isChain_cons_cons.mp hr
      rw [List.cons_append, List.cons_append, length_runs_cons_cons, if_pos hab]
      exact ih hr

/-- A list of so many parts in order has at most so many runs. -/
theorem length_runs_flatten_le (h : ∀ r ∈ rs, r.IsChain fun a b ↦ le a b) :
    (runs le rs.flatten).length ≤ rs.length := by
  induction rs with
  | nil => exact Nat.le_refl 0
  | cons r rs ih =>
    have hfirst := length_runs_append_le (h r List.mem_cons_self) rs.flatten
    have hrest := ih fun m hm ↦ h m (List.mem_cons_of_mem r hm)
    rw [List.flatten_cons, List.length_cons]
    omega

/-! ### Merging -/

section Ordered

variable (htrans : ∀ a b c, le a b → le b c → le a c)

include htrans in
/-- Merging two lists in order keeps the order. -/
theorem keepsOrder_merge (hl : l.Pairwise fun a b ↦ le a b) : KeepsOrder le (l ++ m) (l.merge m le) := by
  induction l generalizing m with
  | nil => simpa using KeepsOrder.refl le m
  | cons a l ih =>
    induction m with
    | nil => simpa using KeepsOrder.refl le (a :: l)
    | cons b m ihm =>
      obtain ⟨ha, hl'⟩ := List.pairwise_cons.mp hl
      by_cases hab : le a b = true
      · rw [List.cons_merge_cons_pos _ _ _ hab]
        exact (KeepsOrder.refl le [a]).append (ih hl')
      · rw [List.cons_merge_cons_neg _ _ _ hab]
        refine (keepsOrder_front (a :: l) m fun c hc ↦ ?_).trans
          ((KeepsOrder.refl le [b]).append ihm)
        rw [← Bool.not_eq_true]
        intro hcb
        rcases List.mem_cons.mp hc with rfl | hc
        · exact hab hcb
        · exact hab (htrans a c b (ha c hc) hcb)

include htrans in
theorem keepsOrder_mergePairs :
    ∀ {rs : List (List α)}, (∀ r ∈ rs, r.Pairwise fun a b ↦ le a b) →
      KeepsOrder le rs.flatten (mergePairs le rs).flatten
  | [], _ => KeepsOrder.refl le []
  | [r], _ => KeepsOrder.refl le _
  | r :: r' :: rs, h => by
    simp only [mergePairs, List.flatten_cons]
    rw [← List.append_assoc]
    exact (keepsOrder_merge htrans (h r (by simp))).append
      (keepsOrder_mergePairs fun m hm ↦ h m (by simp [hm]))

variable (htotal : ∀ a b, le a b || le b a)

include htrans htotal in
theorem pairwise_mergePairs :
    ∀ {rs : List (List α)}, (∀ r ∈ rs, r.Pairwise fun a b ↦ le a b) →
      ∀ r ∈ mergePairs le rs, r.Pairwise fun a b ↦ le a b
  | [], _, r, hr => absurd hr List.not_mem_nil
  | [_], h, r, hr => h r hr
  | r₁ :: r₂ :: rs, h, r, hr => by
    rcases List.mem_cons.mp hr with rfl | hr
    · exact List.pairwise_merge htrans htotal _ _ (h r₁ (by simp)) (h r₂ (by simp))
    · exact pairwise_mergePairs (fun m hm ↦ h m (by simp [hm])) r hr

include htrans in
theorem pairwise_of_mem_runs (h : r ∈ runs le l) : r.Pairwise fun a b ↦ le a b := by
  have htransitive : IsTrans α fun a b ↦ le a b := ⟨htrans⟩
  exact List.isChain_iff_pairwise.mp (List.isChain_of_mem_splitBy h)

include htrans in
/-- A pass keeps the order. -/
theorem keepsOrder_mergePass (l : List α) : KeepsOrder le l (mergePass le l) := by
  have hpass := keepsOrder_mergePairs htrans fun r hr ↦ pairwise_of_mem_runs htrans (l := l) hr
  rwa [runs, List.flatten_splitBy] at hpass

include htrans htotal in
/-- A pass halves the number of runs. -/
theorem length_runs_mergePass_le (l : List α) :
    (runs le (mergePass le l)).length ≤ ((runs le l).length + 1) / 2 := by
  rw [← length_mergePairs]
  refine length_runs_flatten_le fun r hr ↦ ?_
  exact (pairwise_mergePairs htrans htotal (fun r hr ↦ pairwise_of_mem_runs htrans hr) r hr).isChain

include htrans htotal in
/-- A pass over at most two runs puts the list in order. -/
theorem pairwise_mergePass (h : (runs le l).length ≤ 2) :
    (mergePass le l).Pairwise fun a b ↦ le a b := by
  have hpairs := pairwise_mergePairs htrans htotal fun r hr ↦ pairwise_of_mem_runs htrans (l := l) hr
  have hlength := length_mergePairs le (runs le l)
  unfold mergePass
  match hmerged : mergePairs le (runs le l) with
  | [] => exact List.Pairwise.nil
  | [r] => simpa using hpairs r (hmerged ▸ List.mem_singleton_self r)
  | _ :: _ :: _ =>
    rw [hmerged, List.length_cons, List.length_cons] at hlength
    omega

end Ordered

end Jungle.Lib
