import Jungle.KernelList.Families
import Jungle.Lib.NaturalMerge

/-!
# `list_sort`

The natural merge sort of `pintos/lib/kernel/list.c`. `less` compares two elements and reads nothing of
their links. The count of the runs of a pass is at most the number of elements and does not wrap.
-/

set_option autoImplicit false
set_option relaxedAutoImplicit false

namespace Jungle.KernelList

open Jungle.Lib

/-! ### The functions -/

/-- One round of the loop of `is_sorted(a, b, less, aux)`. -/
def isSortedBody (m : Elems) (less : ℕ → ℕ → Bool) (b a : ℕ) : Option (ℕ ⊕ Bool) := do
  let a ← (← listNext m a)
  if a ≠ b then
    if less a (← (← listPrev m a)) then return .inr false
    else return .inl a
  else return .inr true

/-- `is_sorted(a, b, less, aux)` -/
def isSorted (fuel : ℕ) (m : Elems) (less : ℕ → ℕ → Bool) (a b : ℕ) : Option Bool :=
  if a ≠ b then whileLoop (isSortedBody m less b) fuel a else some true

/-- One round of the loop of `find_end_of_run(a, b, less, aux)`. -/
def findEndOfRunBody (m : Elems) (less : ℕ → ℕ → Bool) (b a : ℕ) : Option (ℕ ⊕ ℕ) := do
  let a ← (← listNext m a)
  if a ≠ b then
    if !less a (← (← listPrev m a)) then return .inl a
    else return .inr a
  else return .inr a

/-- `find_end_of_run(a, b, less, aux)` -/
def findEndOfRun (fuel : ℕ) (m : Elems) (less : ℕ → ℕ → Bool) (a b : ℕ) : Option ℕ := do
  assert (a ≠ b)
  whileLoop (findEndOfRunBody m less b) fuel a

/-- One round of the loop of `inplace_merge(a0, a1b0, b1, less, aux)`. -/
def inplaceMergeBody (less : ℕ → ℕ → Bool) (b1 : ℕ) :
    Elems × ℕ × ℕ → Option ((Elems × ℕ × ℕ) ⊕ Elems)
  | (m, a0, a1b0) =>
    if a0 ≠ a1b0 ∧ a1b0 ≠ b1 then
      if !less a1b0 a0 then do
        let a0 ← (← listNext m a0)
        return .inl (m, a0, a1b0)
      else do
        let a1b0 ← (← listNext m a1b0)
        let m ← listSplice m a0 (← (← listPrev m a1b0)) a1b0
        return .inl (m, a0, a1b0)
    else some (.inr m)

/-- `inplace_merge(a0, a1b0, b1, less, aux)` -/
def inplaceMerge (fuel : ℕ) (m : Elems) (less : ℕ → ℕ → Bool) (a0 a1b0 b1 : ℕ) : Option Elems := do
  assert (← isSorted fuel m less a0 a1b0)
  assert (← isSorted fuel m less a1b0 b1)
  whileLoop (inplaceMergeBody less b1) fuel (m, a0, a1b0)

/-- One round of the inner loop of `list_sort(list, less, aux)`, with `a0` and `output_run_cnt`. -/
def passBody (less : ℕ → ℕ → Bool) (list : KList) (fuel : ℕ) :
    Elems × ℕ × ℕ → Option ((Elems × ℕ × ℕ) ⊕ (Elems × ℕ))
  | (m, a0, count) =>
    if a0 ≠ listEnd list then do
      let count := count + 1
      let a1b0 ← findEndOfRun fuel m less a0 (listEnd list)
      if a1b0 = listEnd list then return .inr (m, count)
      else
        let b1 ← findEndOfRun fuel m less a1b0 (listEnd list)
        let m ← inplaceMerge fuel m less a0 a1b0 b1
        return .inl (m, b1, count)
    else some (.inr (m, count))

/-- One round of the outer loop of `list_sort(list, less, aux)`. -/
def sortBody (less : ℕ → ℕ → Bool) (list : KList) (fuel : ℕ) (m : Elems) :
    Option (Elems ⊕ Elems) := do
  let (m, count) ← whileLoop (passBody less list fuel) fuel (m, ← (← listBegin m list), 0)
  if 1 < count then return .inl m else return .inr m

/-- `list_sort(list, less, aux)` -/
def listSort (fuel : ℕ) (m : Elems) (list : KList) (less : ℕ → ℕ → Bool) : Option Elems := do
  let m ← whileLoop (sortBody less list fuel) fuel m
  assert (← isSorted fuel m less (← (← listBegin m list)) (listEnd list))
  return m

/-- `b` is not less than `a`. -/
def atMost (less : ℕ → ℕ → Bool) (a b : ℕ) : Bool := !less b a

variable {m m' : Elems} {F B A R r : List ℕ} {a b c e x y : ℕ} {less : ℕ → ℕ → Bool}
  {list : KList} {rs : List (List ℕ)} {l : List ℕ} {t : ℕ}

/-! ### Runs -/

/-- The loop of `find_end_of_run` ends behind a run. -/
theorem findEndOfRun_loop (h : Ring m (F ++ a :: (r ++ b :: B)))
    (hnodup : (F ++ a :: (r ++ b :: B)).Nodup) (he : e ∈ b :: B)
    (hrun : (a :: r).IsChain fun a b ↦ atMost less a b)
    (hend : b = e ∨ ∀ x ∈ (a :: r).getLast?, atMost less x b = false) :
    Returns (fun fuel ↦ whileLoop (findEndOfRunBody m less e) fuel a) b := by
  induction r generalizing F a with
  | nil =>
    refine returns_leave ?_
    unfold findEndOfRunBody
    dsimp only [Bind.bind]
    rw [Ring.listNext_eq h, Option.bind_some, Option.bind_some, Ring.listPrev_eq h]
    by_cases hbe : b = e
    · rw [if_neg (not_not.mpr hbe)]
      rfl
    · have hless : less b a = true := by simpa [atMost] using hend.resolve_left hbe a rfl
      rw [if_pos hbe, Option.bind_some, Option.bind_some, hless]
      rfl
  | cons c r ih =>
    obtain ⟨hac, hrun⟩ := List.isChain_cons_cons.mp hrun
    have hce : c ≠ e := by grind
    have hless : less c a = false := by simpa [atMost] using hac
    rw [List.cons_append] at h hnodup
    refine returns_continue ?_ (ih (F := F ++ [a]) (by simpa using h)
      (by simpa using hnodup) hrun (by rwa [List.getLast?_cons_cons] at hend))
    unfold findEndOfRunBody
    dsimp only [Bind.bind]
    rw [Ring.listNext_eq h, Option.bind_some, Option.bind_some, Ring.listPrev_eq h, if_pos hce,
      Option.bind_some, Option.bind_some, hless]
    rfl

/-- `find_end_of_run` finds the end of a run. -/
theorem findEndOfRun_returns (h : Ring m (F ++ a :: (r ++ b :: B)))
    (hnodup : (F ++ a :: (r ++ b :: B)).Nodup) (he : e ∈ b :: B)
    (hrun : (a :: r).IsChain fun a b ↦ atMost less a b)
    (hend : b = e ∨ ∀ x ∈ (a :: r).getLast?, atMost less x b = false) :
    Returns (fun fuel ↦ findEndOfRun fuel m less a e) b := by
  have hae : a ≠ e := by grind
  unfold findEndOfRun
  dsimp only [Bind.bind]
  rw [decide_eq_true hae]
  exact findEndOfRun_loop h hnodup he hrun hend

/-- The loop of `is_sorted` in a range in order. -/
theorem isSorted_loop (h : Ring m (F ++ a :: (r ++ b :: B)))
    (hnodup : (F ++ a :: (r ++ b :: B)).Nodup) (hrun : (a :: r).IsChain fun a b ↦ atMost less a b) :
    Returns (fun fuel ↦ whileLoop (isSortedBody m less b) fuel a) true := by
  induction r generalizing F a with
  | nil =>
    refine returns_leave ?_
    unfold isSortedBody
    dsimp only [Bind.bind]
    rw [Ring.listNext_eq h, Option.bind_some, Option.bind_some, if_neg (not_not.mpr rfl)]
    rfl
  | cons c r ih =>
    obtain ⟨hac, hrun⟩ := List.isChain_cons_cons.mp hrun
    have hcb : c ≠ b := by grind
    have hless : less c a = false := by simpa [atMost] using hac
    rw [List.cons_append] at h hnodup
    refine returns_continue ?_ (ih (F := F ++ [a]) (by simpa using h)
      (by simpa using hnodup) hrun)
    unfold isSortedBody
    dsimp only [Bind.bind]
    rw [Ring.listNext_eq h, Option.bind_some, Option.bind_some, Ring.listPrev_eq h, if_pos hcb,
      Option.bind_some, Option.bind_some, hless]
    rfl

/-- `is_sorted` is true of a range in order. -/
theorem isSorted_returns (h : Ring m (F ++ (r ++ b :: B))) (hnodup : (F ++ (r ++ b :: B)).Nodup)
    (hrun : r.IsChain fun a b ↦ atMost less a b) (ha : (r ++ b :: B).head? = some a) :
    Returns (fun fuel ↦ isSorted fuel m less a b) true := by
  cases r with
  | nil =>
    obtain rfl := Option.some.inj ha
    exact ⟨0, fun fuel _ ↦ if_neg (not_not.mpr rfl)⟩
  | cons c r =>
    obtain rfl := Option.some.inj ha
    have hne : c ≠ b := by grind
    unfold isSorted
    simp only [if_pos hne]
    exact isSorted_loop h hnodup hrun

/-- `find_end_of_run` finds the end of the first run. -/
theorem firstRun_returns (hruns : runs (atMost less) l = r :: rs) (h : Ring m (F ++ (l ++ [t])))
    (hnodup : (F ++ (l ++ [t])).Nodup) (ha : l.head? = some a)
    (hb : (rs.flatten ++ [t]).head? = some b) :
    Returns (fun fuel ↦ findEndOfRun fuel m less a t) b := by
  obtain ⟨hl, hne, hchain, -, hapart⟩ := runs_cons hruns
  obtain ⟨c, r, rfl⟩ := List.exists_cons_of_ne_nil hne
  obtain ⟨back, hback⟩ := List.head?_eq_some_iff.mp hb
  have hcells : F ++ (l ++ [t]) = F ++ c :: (r ++ b :: back) := by
    rw [hl, List.append_assoc, hback, List.cons_append]
  obtain rfl : c = a := by
    rw [hl, List.cons_append] at ha
    exact Option.some.inj ha
  rw [hcells] at h hnodup
  refine findEndOfRun_returns h hnodup ?_ hchain ?_
  · rw [← hback]
    exact List.mem_append_right _ (List.mem_singleton_self t)
  · cases hrest : rs.flatten with
    | nil =>
      rw [hrest] at hback
      exact Or.inl (List.cons.inj hback).1.symm
    | cons y rest =>
      rw [hrest] at hback
      refine Or.inr fun x hx ↦ hapart x hx b ?_
      rw [hrest, (List.cons.inj hback).1]
      exact rfl

/-! ### Merging -/

/-- `list_splice` moves one element in front of another one that is before it. -/
theorem listSplice_back (h : Ring m (F ++ x :: (A ++ b :: c :: B)))
    (hnodup : (F ++ x :: (A ++ b :: c :: B)).Nodup) (ha : A.head? = some a) :
    ∃ m', listSplice m a b c = some m' ∧ Ring m' (F ++ x :: b :: (A ++ c :: B)) ∧
      Edits m m' (F ++ x :: (A ++ b :: c :: B)) := by
  obtain ⟨A', rfl⟩ := List.head?_eq_some_iff.mp ha
  obtain ⟨init, z, hz⟩ := exists_concat a A'
  have hsplit : F ++ x :: (a :: A' ++ b :: c :: B) = (F ++ x :: init) ++ z :: ([b] ++ c :: B) := by
    simp [hz]
  have hbehind : ∃ w, prev m a = some (some w) := ⟨x, h.prev_eq⟩
  have hz' : z ∈ a :: A' := hz ▸ List.mem_append_right init (List.mem_singleton_self z)
  have hcells : [z, c] ++ [x, b, b, a] ⊆ F ++ x :: (a :: A' ++ b :: c :: B) := by
    intro w hw
    grind
  rw [hsplit] at h hnodup
  have hcut := (h.cut hnodup (relink_relinked (h.allocated (by simp)) (h.allocated (by simp)))).1
  have hrejoin : (F ++ x :: init) ++ z :: c :: B = F ++ x :: a :: (A' ++ c :: B) := by
    have hinit : init ++ z :: c :: B = a :: A' ++ c :: B := by simp [hz]
    rw [List.append_assoc, List.cons_append, hinit, List.cons_append]
  rw [hrejoin] at hcut
  have hnodup' : (F ++ x :: ([b] ++ a :: (A' ++ c :: B))).Nodup := by
    refine (List.Perm.nodup_iff ?_).mp (hsplit ▸ hnodup)
    refine List.Perm.append_left F (List.Perm.cons x ?_)
    exact List.perm_middle
  obtain ⟨m', heq, hring, hedits⟩ :=
    listSplice_ring (z := b) h hnodup rfl rfl hcut hnodup' hbehind
  exact ⟨m', heq, hring, ((edits_relink m z c).trans hedits).mono hcells⟩

/-- The loop of `inplace_merge` merges two neighbouring ranges. -/
theorem inplaceMerge_loop {b1 a0 a1b0 : ℕ} (h : Ring m (F ++ x :: (A ++ (B ++ b1 :: R))))
    (hnodup : (F ++ x :: (A ++ (B ++ b1 :: R))).Nodup)
    (ha0 : (A ++ (B ++ b1 :: R)).head? = some a0) (ha1b0 : (B ++ b1 :: R).head? = some a1b0) :
    ∃ m', Returns (fun fuel ↦ whileLoop (inplaceMergeBody less b1) fuel (m, a0, a1b0)) m' ∧
      Ring m' (F ++ x :: (A.merge B (atMost less) ++ b1 :: R)) ∧
      Edits m m' (F ++ x :: (A ++ (B ++ b1 :: R))) := by
  induction A generalizing F x m B a0 a1b0 with
  | nil =>
    obtain rfl := Option.some.inj (ha0.symm.trans ha1b0)
    refine ⟨m, returns_leave (if_neg fun hne ↦ hne.1 rfl), ?_, Edits.refl ..⟩
    rwa [List.nil_merge]
  | cons a A ih =>
    obtain rfl : a = a0 := Option.some.inj ha0
    induction B generalizing F x m a1b0 with
    | nil =>
      obtain rfl : b1 = a1b0 := Option.some.inj ha1b0
      refine ⟨m, returns_leave (if_neg fun hne ↦ hne.2 rfl), ?_, Edits.refl ..⟩
      rwa [List.merge_right]
    | cons b B ihB =>
      obtain rfl : b = a1b0 := Option.some.inj ha1b0
      have hne : a ≠ b ∧ b ≠ b1 := by grind
      by_cases hab : atMost less a b = true
      · obtain ⟨y, back, hy⟩ : ∃ y back, A ++ (b :: B ++ b1 :: R) = y :: back :=
          List.exists_cons_of_ne_nil (by simp)
        have hnext : listNext m a = some (some y) := by
          have hring : Ring m ((F ++ [x]) ++ a :: y :: back) := by simpa [← hy] using h
          exact hring.listNext_eq
        obtain ⟨m', hreturns, hring, hedits⟩ := ih (F := F ++ [x]) (x := a) (B := b :: B)
          (by simpa using h) (by simpa using hnodup) (by rw [hy]; rfl) rfl
        refine ⟨m', returns_continue ?_ hreturns, ?_, ?_⟩
        · unfold inplaceMergeBody
          dsimp only [Bind.bind]
          rw [if_pos hne, if_pos (by simpa [atMost] using hab), hnext]
          rfl
        · rw [List.cons_merge_cons_pos _ _ _ hab]
          simpa using hring
        · simpa using hedits
      · obtain ⟨c, back, hc⟩ : ∃ c back, B ++ b1 :: R = c :: back :=
          List.exists_cons_of_ne_nil (by simp)
        have hsplit : F ++ x :: (a :: A ++ (b :: B ++ b1 :: R)) =
            F ++ x :: (a :: A ++ b :: c :: back) := by simp [hc]
        have hmiddle : Ring m ((F ++ x :: a :: A) ++ b :: c :: back) := by
          simpa [hc] using h
        rw [hsplit] at h hnodup ⊢
        obtain ⟨m₁, hsplice, hring₁, hedits₁⟩ := listSplice_back h hnodup rfl
        rw [← hc] at hring₁
        have hperm : (F ++ x :: (a :: A ++ b :: c :: back)).Perm
            ((F ++ [x]) ++ b :: (a :: A ++ (B ++ b1 :: R))) := by
          rw [hc, List.append_assoc]
          exact List.Perm.append_left F (List.Perm.cons x List.perm_middle)
        obtain ⟨m', hreturns, hring, hedits⟩ := ihB (F := F ++ [x]) (x := b)
          (by simpa using hring₁) (hperm.nodup_iff.mp hnodup) (by rw [hc]; rfl) rfl
        refine ⟨m', returns_continue ?_ hreturns, ?_, ?_⟩
        · unfold inplaceMergeBody
          dsimp only [Bind.bind]
          rw [if_pos hne, if_neg (by simpa [atMost] using hab), hmiddle.listNext_eq,
            Option.bind_some, Option.bind_some, hmiddle.listPrev_eq, Option.bind_some,
            Option.bind_some, hsplice]
          rfl
        · rw [List.cons_merge_cons_neg _ _ _ hab]
          simpa using hring
        · refine (hedits₁.trans hedits).mono fun w hw ↦ ?_
          rcases List.mem_append.mp hw with hw | hw
          · exact hw
          · exact hperm.mem_iff.mpr hw

/-- `inplace_merge` merges two neighbouring runs. -/
theorem inplaceMerge_returns {b1 a0 a1b0 : ℕ} (h : Ring m (F ++ x :: (A ++ (B ++ b1 :: R))))
    (hnodup : (F ++ x :: (A ++ (B ++ b1 :: R))).Nodup)
    (hA : A.IsChain fun a b ↦ atMost less a b) (hB : B.IsChain fun a b ↦ atMost less a b)
    (ha0 : (A ++ (B ++ b1 :: R)).head? = some a0) (ha1b0 : (B ++ b1 :: R).head? = some a1b0) :
    ∃ m', Returns (fun fuel ↦ inplaceMerge fuel m less a0 a1b0 b1) m' ∧
      Ring m' (F ++ x :: (A.merge B (atMost less) ++ b1 :: R)) ∧
      Edits m m' (F ++ x :: (A ++ (B ++ b1 :: R))) := by
  obtain ⟨m', hreturns, hring, hedits⟩ := inplaceMerge_loop h hnodup ha0 ha1b0
  obtain ⟨back, hback⟩ := List.head?_eq_some_iff.mp ha1b0
  have hfirst : Returns (fun fuel ↦ isSorted fuel m less a0 a1b0) true := by
    refine isSorted_returns (F := F ++ [x]) (r := A) (B := back) ?_ ?_ hA ?_
    · simpa [hback] using h
    · simpa [hback] using hnodup
    · rw [← hback, ha0]
  have hsecond : Returns (fun fuel ↦ isSorted fuel m less a1b0 b1) true := by
    refine isSorted_returns (F := F ++ x :: A) (r := B) (B := R) ?_ ?_ hB ha1b0
    · simpa using h
    · simpa using hnodup
  exact ⟨m', hfirst.bind (hsecond.bind hreturns), hring, hedits⟩

/-! ### Passes -/

theorem ne_tail_of_mem (hnodup : (nodes list l).Nodup) (hc : c ∈ l) : c ≠ list.tail := by
  rw [nodes] at hnodup
  grind

/-- The last run of a pass. -/
theorem passBody_last {count : ℕ} (hne : a ≠ listEnd list)
    (hfind : Returns (fun fuel ↦ findEndOfRun fuel m less a (listEnd list)) (listEnd list)) :
    Returns (fun fuel ↦ passBody less list fuel (m, a, count)) (.inr (m, count + 1)) := by
  obtain ⟨bound, hbound⟩ := hfind
  refine ⟨bound, fun fuel hfuel ↦ ?_⟩
  have hcall : findEndOfRun fuel m less a (listEnd list) = some (listEnd list) := hbound fuel hfuel
  unfold passBody
  dsimp only [Bind.bind]
  rw [if_pos hne, hcall, Option.bind_some, if_pos rfl]
  rfl

/-- Two runs of a pass. -/
theorem passBody_merge {b1 count : ℕ} (hne : a ≠ listEnd list) (hne' : b ≠ listEnd list)
    (hfind : Returns (fun fuel ↦ findEndOfRun fuel m less a (listEnd list)) b)
    (hfind' : Returns (fun fuel ↦ findEndOfRun fuel m less b (listEnd list)) b1)
    (hmerge : Returns (fun fuel ↦ inplaceMerge fuel m less a b b1) m') :
    Returns (fun fuel ↦ passBody less list fuel (m, a, count)) (.inl (m', b1, count + 1)) := by
  obtain ⟨bound, hbound⟩ := hfind
  obtain ⟨bound', hbound'⟩ := hfind'
  obtain ⟨bound'', hbound''⟩ := hmerge
  refine ⟨bound + bound' + bound'', fun fuel hfuel ↦ ?_⟩
  have hcall : findEndOfRun fuel m less a (listEnd list) = some b := hbound fuel (by omega)
  have hcall' : findEndOfRun fuel m less b (listEnd list) = some b1 := hbound' fuel (by omega)
  have hcall'' : inplaceMerge fuel m less a b b1 = some m' := hbound'' fuel (by omega)
  unfold passBody
  dsimp only [Bind.bind]
  rw [if_pos hne, hcall, Option.bind_some, if_neg hne', hcall', Option.bind_some, hcall'']
  rfl

/-- A pass merges the runs in pairs. -/
theorem pass_loop : ∀ {rs : List (List ℕ)} {m : Elems} {D : List ℕ} {a count : ℕ},
    runs (atMost less) rs.flatten = rs → Ring m (nodes list (D ++ rs.flatten)) →
    (nodes list (D ++ rs.flatten)).Nodup → (rs.flatten ++ [list.tail]).head? = some a →
    ∃ m', NestedReturns (passBody less list) (m, a, count)
        (m', count + (mergePairs (atMost less) rs).length) ∧
      Ring m' (nodes list (D ++ (mergePairs (atMost less) rs).flatten)) ∧
      Edits m m' (nodes list (D ++ rs.flatten))
  | [], m, D, a, count, hruns, h, hnodup, ha => by
    obtain rfl : list.tail = a := Option.some.inj ha
    exact ⟨m, nested_leave ⟨0, fun _ _ ↦ if_neg (not_not.mpr rfl)⟩, h, Edits.refl ..⟩
  | [r], m, D, a, count, hruns, h, hnodup, ha => by
    obtain ⟨hl, hne, -⟩ := runs_cons hruns
    obtain ⟨c, r, rfl⟩ := List.exists_cons_of_ne_nil hne
    obtain rfl : c = a := Option.some.inj ha
    have hcells : nodes list (D ++ [c :: r].flatten) =
        (list.head :: D) ++ ([c :: r].flatten ++ [list.tail]) := by simp [nodes]
    have hapart : c ≠ list.tail := ne_tail_of_mem hnodup (by simp)
    rw [hcells] at h hnodup
    have hfind := firstRun_returns (b := list.tail) hruns h hnodup rfl rfl
    refine ⟨m, nested_leave (passBody_last hapart hfind), ?_, Edits.refl ..⟩
    rwa [← hcells] at h
  | r :: r' :: rs, m, D, a, count, hruns, h, hnodup, ha => by
    obtain ⟨-, hne, hchain, hruns', -⟩ := runs_cons hruns
    obtain ⟨-, hne', hchain', hruns'', -⟩ := runs_cons hruns'
    obtain ⟨c, r, rfl⟩ := List.exists_cons_of_ne_nil hne
    obtain ⟨d, r', rfl⟩ := List.exists_cons_of_ne_nil hne'
    obtain rfl : c = a := Option.some.inj ha
    obtain ⟨b1, back, hback⟩ : ∃ b1 back, rs.flatten ++ [list.tail] = b1 :: back :=
      List.exists_cons_of_ne_nil (by simp)
    obtain ⟨F, x, hx⟩ := exists_concat list.head D
    have hnodes : ∀ M, nodes list (D ++ (M ++ rs.flatten)) = F ++ x :: (M ++ b1 :: back) := by
      intro M
      rw [nodes, ← hback, List.append_assoc, ← List.cons_append, hx]
      simp
    have hcells : nodes list (D ++ ((c :: r) :: (d :: r') :: rs).flatten) =
        F ++ x :: (c :: r ++ (d :: r' ++ b1 :: back)) := by
      have hparts := hnodes (c :: r ++ d :: r')
      rw [List.append_assoc, List.append_assoc] at hparts
      simpa using hparts
    have hfirst : nodes list (D ++ ((c :: r) :: (d :: r') :: rs).flatten) =
        (list.head :: D) ++ (((c :: r) :: (d :: r') :: rs).flatten ++ [list.tail]) := by simp [nodes]
    have hsecond : nodes list (D ++ ((c :: r) :: (d :: r') :: rs).flatten) =
        (list.head :: (D ++ c :: r)) ++ (((d :: r') :: rs).flatten ++ [list.tail]) := by simp [nodes]
    have hapart : c ≠ list.tail ∧ d ≠ list.tail :=
      ⟨ne_tail_of_mem hnodup (by simp), ne_tail_of_mem hnodup (by simp)⟩
    have hfind := firstRun_returns (b := d) hruns (hfirst ▸ h) (hfirst ▸ hnodup) rfl rfl
    have hfind' := firstRun_returns (b := b1) hruns' (hsecond ▸ h) (hsecond ▸ hnodup) rfl
      (by rw [hback]; rfl)
    rw [hcells] at h hnodup ⊢
    obtain ⟨m₁, hmerge, hring₁, hedits₁⟩ := inplaceMerge_returns h hnodup hchain hchain' rfl rfl
    have hperm : (F ++ x :: (c :: r ++ (d :: r' ++ b1 :: back))).Perm
        (F ++ x :: ((c :: r).merge (d :: r') (atMost less) ++ b1 :: back)) := by
      refine List.Perm.append_left F (List.Perm.cons x ?_)
      rw [← List.append_assoc]
      exact (List.merge_perm_append _).symm.append_right _
    have hnodes₁ := hnodes ((c :: r).merge (d :: r') (atMost less))
    rw [← List.append_assoc] at hnodes₁
    have hnodup₁ := hperm.nodup_iff.mp hnodup
    rw [← hnodes₁] at hring₁ hnodup₁ hperm
    obtain ⟨m', hreturns, hring, hedits⟩ := pass_loop hruns'' hring₁ hnodup₁
      (by rw [hback]; rfl)
    refine ⟨m', ?_, ?_, (hedits₁.trans hedits).mono fun w hw ↦ ?_⟩
    · have hcount : count + (mergePairs (atMost less) ((c :: r) :: (d :: r') :: rs)).length =
          count + 1 + (mergePairs (atMost less) rs).length := by
        rw [mergePairs, List.length_cons]
        omega
      rw [hcount]
      exact nested_continue (passBody_merge hapart.1 hapart.2 hfind hfind' hmerge) hreturns
    · rw [List.append_assoc] at hring
      exact hring
    · rcases List.mem_append.mp hw with hw | hw
      · exact hw
      · exact hperm.mem_iff.mpr hw

/-- A pass over a list. -/
theorem pass_returns (h : Ring m (nodes list l)) (hnodup : (nodes list l).Nodup) :
    ∃ a m', listBegin m list = some (some a) ∧
      NestedReturns (passBody less list) (m, a, 0) (m', ((runs (atMost less) l).length + 1) / 2) ∧
      Ring m' (nodes list (mergePass (atMost less) l)) ∧ Edits m m' (nodes list l) := by
  obtain ⟨a, back, ha⟩ : ∃ a back, l ++ [list.tail] = a :: back :=
    List.exists_cons_of_ne_nil (by simp)
  have hflat : (runs (atMost less) l).flatten = l := List.flatten_splitBy _ _
  have hruns : runs (atMost less) (runs (atMost less) l).flatten = runs (atMost less) l := by
    rw [hflat]
  rw [← hflat, ← List.nil_append (runs (atMost less) l).flatten] at h hnodup
  obtain ⟨m', hreturns, hring, hedits⟩ := pass_loop (a := a) hruns h hnodup
    (by rw [hflat, ha, List.head?_cons])
  rw [Nat.zero_add, length_mergePairs] at hreturns
  rw [List.nil_append, hflat] at hedits h
  exact ⟨a, m', by rw [h.listBegin_eq, ha, List.head?_cons], hreturns, hring, hedits⟩

/-- One round of the outer loop of `list_sort`. -/
theorem sortBody_returns {n a : ℕ} (hbegin : listBegin m list = some (some a))
    (hpass : NestedReturns (passBody less list) (m, a, 0) (m', n)) :
    Returns (fun fuel ↦ sortBody less list fuel m) (if 1 < n then .inl m' else .inr m') := by
  obtain ⟨bound, hbound⟩ := hpass.returns
  refine ⟨bound, fun fuel hfuel ↦ ?_⟩
  have hcall : whileLoop (passBody less list fuel) fuel (m, a, 0) = some (m', n) := hbound fuel hfuel
  unfold sortBody
  dsimp only [Bind.bind]
  rw [hbegin, Option.bind_some, Option.bind_some, hcall, Option.bind_some]
  dsimp only
  split_ifs <;> rfl

section Sorting

variable (horder : IsStrictWeakOrder ℕ fun a b ↦ less a b)

include horder

theorem atMost_trans (a b c : ℕ) (hab : atMost less a b) (hbc : atMost less b c) : atMost less a c := by
  simp only [atMost, Bool.not_eq_true'] at hab hbc ⊢
  by_contra hca
  rw [Bool.not_eq_false] at hca
  by_cases hba : less a b = true
  · exact absurd (horder.trans c a b hca hba) (by simp [hbc])
  by_cases hcb : less b c = true
  · exact absurd (horder.trans b c a hcb hca) (by simp [hab])
  exact (horder.incomp_trans a b c ⟨hba, by simp [hab]⟩ ⟨hcb, by simp [hbc]⟩).2 hca

theorem atMost_total (a b : ℕ) : atMost less a b || atMost less b a := by
  by_contra hneither
  simp only [atMost, Bool.or_eq_true, Bool.not_eq_true', not_or, Bool.not_eq_false] at hneither
  exact horder.irrefl a (horder.trans a b a hneither.2 hneither.1)

/-- The outer loop of `list_sort`: the number of runs decreases. -/
theorem sort_loop (h : Ring m (nodes list l)) (hnodup : (nodes list l).Nodup) : ∃ m' l',
    NestedReturns (sortBody less list) m m' ∧ Ring m' (nodes list l') ∧
      KeepsOrder (atMost less) l l' ∧ l'.Pairwise (fun a b ↦ atMost less a b) ∧
      Edits m m' (nodes list l) := by
  have htrans := atMost_trans horder
  have htotal := atMost_total horder
  induction hn : (runs (atMost less) l).length using Nat.strongRecOn generalizing l m with
  | ind n ih =>
    obtain ⟨a, m₁, hbegin, hpass, hring, hedits⟩ := pass_returns h hnodup
    have hkeeps := keepsOrder_mergePass htrans l
    have hround := sortBody_returns hbegin hpass
    rw [hn] at hround
    by_cases hmore : 1 < (n + 1) / 2
    · rw [if_pos hmore] at hround
      have hshorter := length_runs_mergePass_le htrans htotal l
      have hperm : (nodes list (mergePass (atMost less) l)).Perm (nodes list l) :=
        (hkeeps.perm.append_right _).cons _
      obtain ⟨m', l', hreturns, hring', hkeeps', hsorted, hedits'⟩ :=
        ih _ (by omega) hring (hperm.nodup_iff.mpr hnodup) rfl
      refine ⟨m', l', nested_continue hround hreturns, hring', hkeeps.trans hkeeps', hsorted,
        (hedits.trans hedits').mono fun w hw ↦ ?_⟩
      rcases List.mem_append.mp hw with hw | hw
      · exact hw
      · exact hperm.mem_iff.mp hw
    · rw [if_neg hmore] at hround
      exact ⟨m₁, _, nested_leave hround, hring, hkeeps,
        pairwise_mergePass htrans htotal (by omega), hedits⟩

/-- `list_sort` puts the elements of a ring in order. -/
theorem listSort_ring (h : Ring m (nodes list l)) (hnodup : (nodes list l).Nodup) : ∃ m' l',
    Returns (fun fuel ↦ listSort fuel m list less) m' ∧ Ring m' (nodes list l') ∧
      KeepsOrder (atMost less) l l' ∧ l'.Pairwise (fun a b ↦ atMost less a b) ∧
      Edits m m' (nodes list l) := by
  obtain ⟨m', l', hloop, hring, hkeeps, hsorted, hedits⟩ := sort_loop horder h hnodup
  refine ⟨m', l', hloop.returns.bind ?_, hring, hkeeps, hsorted, hedits⟩
  obtain ⟨a, back, ha⟩ : ∃ a back, l' ++ [list.tail] = a :: back :=
    List.exists_cons_of_ne_nil (by simp)
  have hbegin : listBegin m' list = some (some a) := by
    rw [hring.listBegin_eq, ha, List.head?_cons]
  have hperm : (nodes list l').Perm (nodes list l) := (hkeeps.perm.append_right _).cons _
  have hcheck := isSorted_returns (F := [list.head]) (B := []) hring
    (hperm.nodup_iff.mpr hnodup) hsorted.isChain (by rw [ha]; rfl)
  obtain ⟨bound, hbound⟩ := hcheck
  refine ⟨bound, fun fuel hfuel ↦ ?_⟩
  have hcall : isSorted fuel m' less a (listEnd list) = some true := hbound fuel hfuel
  dsimp only [Bind.bind]
  rw [hbegin, Option.bind_some, Option.bind_some, hcall]
  rfl

variable {ι : Type*} [DecidableEq ι] {lists : ι → KList} {σ : ι → List ℕ}

/-- `list_sort` returns, with its list in order and elements that are neither less nor more than one
another in their order. The other lists stay as they are. -/
theorem listSort_sorts (h : Holds lists m σ) (i : ι) : ∃ m' seq,
    Returns (fun fuel ↦ listSort fuel m (lists i) less) m' ∧
      Holds lists m' (Function.update σ i seq) ∧ seq.Perm (σ i) ∧
      seq.Pairwise (fun a b ↦ less b a = false) ∧
      ∀ a b, less a b = false → less b a = false → [a, b].Sublist (σ i) → [a, b].Sublist seq := by
  obtain ⟨m', seq, hreturns, hring, hkeeps, hsorted, hedits⟩ :=
    listSort_ring horder (h.ring i) (h.nodup i)
  have hperm : (nodes (lists i) seq).Perm (nodes (lists i) (σ i)) :=
    (hkeeps.perm.append_right _).cons _
  refine ⟨m', seq, hreturns, h.update hring (hperm.nodup_iff.mpr (h.nodup i)) (fun a ha ↦ ?_) hedits
    (fun a ha ↦ Or.inl ha), hkeeps.perm, hsorted.imp fun hab ↦ ?_, fun a b _ hba ↦ ?_⟩
  · exact Or.inl (hkeeps.perm.mem_iff.mp ha)
  · simpa [atMost] using hab
  · exact hkeeps.pair a b (by simp [atMost, hba])

end Sorting

/-- A list with the elements 3 and 2. -/
def twoElems : Elems
  | 0 => some ⟨none, some 3⟩
  | 3 => some ⟨some 0, some 2⟩
  | 2 => some ⟨some 3, some 1⟩
  | 1 => some ⟨some 2, none⟩
  | _ => none

theorem holds_twoElems : Holds (fun _ : Unit ↦ ⟨0, 1⟩) twoElems fun _ ↦ [3, 2] where
  ring _ := by
    refine ⟨?_, fun a ha ↦ ?_, fun a ha ↦ ?_⟩
    · change Links _ _ [0, 3, 2, 1]
      simp only [links_cons_cons, links_singleton, and_true]
      decide
    · obtain rfl := Option.some.inj ha
      rfl
    · obtain rfl := Option.some.inj ha
      rfl
  nodup _ := by simp [nodes]
  disjoint i j hij := absurd (Subsingleton.elim i j) hij

theorem isStrictWeakOrder_lt : IsStrictWeakOrder ℕ fun a b ↦ decide (a < b) where
  irrefl a := by simp
  trans a b c hab hbc := by
    simp only [decide_eq_true_eq] at *
    omega
  incomp_trans a b c hab hbc := by
    simp only [decide_eq_true_eq] at *
    omega

/-- The two elements are put in the order of their addresses. -/
theorem listSort_sorts_twoElems : ∃ m' seq,
    Returns (fun fuel ↦ listSort fuel twoElems ⟨0, 1⟩ fun a b ↦ decide (a < b)) m' ∧
      Holds (fun _ : Unit ↦ ⟨0, 1⟩) m' (Function.update (fun _ ↦ [3, 2]) () seq) ∧ seq.Perm [3, 2] ∧
      seq.Pairwise (fun a b ↦ decide (b < a) = false) ∧
      ∀ a b, decide (a < b) = false → decide (b < a) = false → [a, b].Sublist [3, 2] →
        [a, b].Sublist seq :=
  listSort_sorts isStrictWeakOrder_lt holds_twoElems ()

end Jungle.KernelList
