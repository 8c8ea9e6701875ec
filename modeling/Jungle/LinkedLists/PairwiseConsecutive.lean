import Jungle.LinkedLists.MoveItems
import Jungle.LinkedLists.SortedInsert
import Jungle.LinkedLists.Stacks
import Mathlib.Algebra.Order.Group.Int
import Mathlib.Algebra.Order.Group.Abs
import Mathlib.Algebra.Ring.Parity
import Mathlib.Data.List.Induction

/-!
# Pairs of neighbours on a stack

`isStackPairwiseConsecutive` takes the items off the stack two by two, puts them on a second stack as
long as the two differ by one, and puts them back at the end. `ByTwos` is a property of the pairs. The
loops reverse the stack twice (`takeLoop_returns`, `restoreLoop_returns`), but the exit at a pair that
does not differ by one leaves the items where they are, and the difference is that of `int`s, which
wraps.
-/

set_option autoImplicit false
set_option relaxedAutoImplicit false

namespace Jungle.LinkedLists

open Jungle.Lib

/-- `abs` of a 32-bit `int` -/
def intAbs (x : ℤ) : ℤ := int32 x.natAbs

/-- One round of the first loop of `isStackPairwiseConsecutive`, which is left with whether it has
emptied the stack. -/
def takeBody (malloc : Memory → ℕ) (s tmp : ℕ) (m : Memory) : Option (Memory ⊕ (Bool × Memory)) := do
  if ← isEmptyStack m s then return .inr (true, m)
  else
    let (x, m) ← pop m s
    let (y, m) ← pop m s
    if intAbs (int32 (x - y)) = 1 then
      let m ← push m tmp x (malloc m)
      let m ← push m tmp y (malloc m)
      return .inl m
    else return .inr (false, m)

/-- One round of the second loop of `isStackPairwiseConsecutive`. -/
def restoreBody (malloc : Memory → ℕ) (s tmp : ℕ) (m : Memory) : Option (Memory ⊕ Memory) := do
  if ← isEmptyStack m tmp then return .inr m
  else
    let (x, m) ← pop m tmp
    let m ← push m s x (malloc m)
    return .inl m

/-- `isStackPairwiseConsecutive(s)`: the returned number, the memory and what it prints; `tmp` is the
address of the local stack. -/
def isStackPairwiseConsecutive (malloc : Memory → ℕ) (fuel : ℕ) (m : Memory) (s : Option ℕ)
    (tmp : ℕ) : Option (ℤ × Memory × List ℤ) :=
  match s with
  | none => some (0, m, [])
  | some s => do
    if (← m.lists s).size.tmod 2 = 1 then return (0, m, [])
    else
      let m := { m with lists := m.lists.put tmp ⟨0, none⟩ }
      let (emptied, m) ← whileLoop (takeBody malloc s tmp) fuel m
      if emptied then
        let m ← whileLoop (restoreBody malloc s tmp) fuel m
        return (1, m, ← printList fuel m (some s))
      else return (0, m, [])

/-- A property of the items two by two. -/
def ByTwos (r : ℤ → ℤ → Prop) : List ℤ → Prop
  | x :: y :: items => r x y ∧ ByTwos r items
  | _ => True

/-- The items differ by one. -/
def Consecutive (x y : ℤ) : Prop := |x - y| = 1

/-- The `int`s differ by one. -/
def IntConsecutive (x y : ℤ) : Prop := intAbs (int32 (x - y)) = 1

/-- The call answers whether the number of items is even and the items of each pair differ by one, and
the stack has its items afterwards. -/
def Answers (call : ℕ → Option (ℤ × Memory × List ℤ)) (s : ℕ) (items : List ℤ) : Prop :=
  ∃ code m' printed, Returns call (code, m', printed) ∧
    (code = 1 ↔ Even items.length ∧ ByTwos Consecutive items) ∧
    ∃ entries, IsList m' s entries ∧ entries.map Prod.snd = items

variable {malloc : Memory → ℕ} {m m' : Memory} {p q : ℕ} {entries others : List (ℕ × ℤ)}
  {items : List ℤ} {r r' : ℤ → ℤ → Prop}

theorem ByTwos.imp (himp : ∀ x y, r x y → r' x y) (h : ByTwos r items) : ByTwos r' items := by
  induction items using ByTwos.induct with
  | case1 x y items ih => exact ⟨himp x y h.1, ih h.2⟩
  | case2 items hshort =>
    unfold ByTwos
    split
    · exact absurd rfl (hshort _ _ _)
    · trivial

theorem Consecutive.int {x y : ℤ} (h : Consecutive x y) : IntConsecutive x y := by
  unfold Consecutive at h
  unfold IntConsecutive
  rcases (abs_eq (Int.zero_le_ofNat 1)).mp h with heq | heq
  · rw [heq]
    decide
  · rw [heq]
    decide

/-- A round takes a pair off the stack, onto the other one if the two differ by one. -/
theorem Pair.take {a b : ℕ} {x y : ℤ} (hmalloc : Allocates malloc)
    (h : Pair m p q ((a, x) :: (b, y) :: entries) others)
    (hroom : ((entries.length + 2 + others.length : ℕ) : ℤ) ≤ intMax) :
    (IntConsecutive x y → ∃ c d m', takeBody malloc p q m = some (.inl m') ∧
      Pair m' p q entries ((d, y) :: (c, x) :: others)) ∧
    (¬IntConsecutive x y → ∃ m', takeBody malloc p q m = some (.inr (false, m')) ∧
      IsList m' p entries) := by
  have hempty : isEmptyStack m p = some false := isEmptyStack_eq h.first
  obtain ⟨m₁, hpop₁, hpair₁, hfree₁, -⟩ := h.pop (by simp only [List.length_cons]; omega)
  obtain ⟨m₂, hpop₂, hpair₂, hfree₂, hstays₂⟩ := hpair₁.pop (by rw [List.length_cons]; omega)
  have hne : a ≠ b := fun heq ↦ hpair₁.first.not_mem_of_free hfree₁ (by simp [heq])
  refine ⟨fun hxy ↦ ?_, fun hxy ↦ ⟨m₂, ?_, hpair₂.first⟩⟩
  · obtain ⟨c, m₃, hpush₃, hpair₃, hstays₃⟩ := hpair₂.symm.push hmalloc ⟨b, hfree₂⟩ (by omega) x
    have hfree₃ : ∃ e, m₃.nodes e = none := by
      by_cases hac : a = c
      · exact ⟨b, hstays₃ b (fun heq ↦ hne (hac.trans (Option.some.inj heq).symm)) hfree₂⟩
      · have hfree : m₂.nodes a = none := hstays₂ a (Option.some_ne_none a) hfree₁
        exact ⟨a, hstays₃ a (fun heq ↦ hac (Option.some.inj heq)) hfree⟩
    obtain ⟨d, m₄, hpush₄, hpair₄, -⟩ := hpair₃.push hmalloc hfree₃
      (by rw [List.length_cons]; omega) y
    refine ⟨c, d, m₄, ?_, hpair₄.symm⟩
    unfold IntConsecutive at hxy
    unfold takeBody
    dsimp only [Bind.bind]
    rw [hempty, Option.bind_some, if_neg Bool.false_ne_true, hpop₁, Option.bind_some, hpop₂,
      Option.bind_some, if_pos hxy, hpush₃, Option.bind_some, hpush₄]
    rfl
  · unfold IntConsecutive at hxy
    unfold takeBody
    dsimp only [Bind.bind]
    rw [hempty, Option.bind_some, if_neg Bool.false_ne_true, hpop₁, Option.bind_some, hpop₂,
      Option.bind_some, if_neg hxy]
    rfl

/-- The first loop empties the stack onto the other one if the items of each pair differ by one as
`int`s. -/
theorem takeLoop_empties (hmalloc : Allocates malloc) (h : Pair m p q entries others)
    (hroom : ((entries.length + others.length : ℕ) : ℤ) ≤ intMax) (heven : Even entries.length)
    (htwos : ByTwos IntConsecutive (entries.map Prod.snd)) : ∃ m' moved,
      Returns (fun fuel ↦ whileLoop (takeBody malloc p q) fuel m) (true, m') ∧
        Pair m' p q [] moved ∧
        moved.map Prod.snd = (entries.map Prod.snd).reverse ++ others.map Prod.snd := by
  induction entries using List.twoStepInduction generalizing m others with
  | nil =>
    refine ⟨m, others, returns_leave ?_, h, rfl⟩
    simp [takeBody, isEmptyStack_eq h.first]
  | singleton e => exact absurd heven (by simp)
  | cons_cons e e' entries ih _ =>
    obtain ⟨a, x⟩ := e
    obtain ⟨b, y⟩ := e'
    simp only [List.length_cons] at hroom heven
    obtain ⟨c, d, m₁, hbody, hpair⟩ := (h.take hmalloc (by omega)).1 htwos.1
    obtain ⟨m', moved, hreturns, hpair', hitems⟩ := ih hpair
      (by simp only [List.length_cons]; omega) (by simpa [Nat.even_add_one] using heven) htwos.2
    refine ⟨m', moved, returns_continue hbody hreturns, hpair', ?_⟩
    simp [hitems]

/-- The first loop leaves fewer items on the stack if the items of a pair do not differ by one as
`int`s. -/
theorem takeLoop_leaves (hmalloc : Allocates malloc) (h : Pair m p q entries others)
    (hroom : ((entries.length + others.length : ℕ) : ℤ) ≤ intMax)
    (htwos : ¬ByTwos IntConsecutive (entries.map Prod.snd)) : ∃ m' rest,
      Returns (fun fuel ↦ whileLoop (takeBody malloc p q) fuel m) (false, m') ∧
        IsList m' p rest ∧ rest.length < entries.length := by
  induction entries using List.twoStepInduction generalizing m others with
  | nil => exact absurd trivial htwos
  | singleton e => exact absurd trivial htwos
  | cons_cons e e' entries ih _ =>
    obtain ⟨a, x⟩ := e
    obtain ⟨b, y⟩ := e'
    simp only [List.length_cons] at hroom ⊢
    by_cases hxy : IntConsecutive x y
    · obtain ⟨c, d, m₁, hbody, hpair⟩ := (h.take hmalloc (by omega)).1 hxy
      obtain ⟨m', rest, hreturns, hlist, hless⟩ := ih hpair
        (by simp only [List.length_cons]; omega) fun hrest ↦ htwos ⟨hxy, hrest⟩
      exact ⟨m', rest, returns_continue hbody hreturns, hlist, by omega⟩
    · obtain ⟨m', hbody, hlist⟩ := (h.take hmalloc (by omega)).2 hxy
      exact ⟨m', entries, returns_leave hbody, hlist, by omega⟩

/-- The second loop puts the items back. -/
theorem restoreLoop_returns (hmalloc : Allocates malloc) (h : Pair m p q entries others)
    (hroom : ((entries.length + others.length : ℕ) : ℤ) ≤ intMax) :
    ∃ m' restored, Returns (fun fuel ↦ whileLoop (restoreBody malloc p q) fuel m) m' ∧
      IsList m' p restored ∧
      restored.map Prod.snd = (others.map Prod.snd).reverse ++ entries.map Prod.snd := by
  induction others generalizing m entries with
  | nil =>
    refine ⟨m, entries, returns_leave ?_, h.first, rfl⟩
    simp [restoreBody, isEmptyStack_eq h.second]
  | cons entry others ih =>
    obtain ⟨a, v⟩ := entry
    simp only [List.length_cons] at hroom
    obtain ⟨m₁, hpop, hpair₁, hfree₁, -⟩ := h.symm.pop (by rw [List.length_cons]; omega)
    obtain ⟨b, m₂, hpush, hpair₂, -⟩ := hpair₁.symm.push hmalloc ⟨a, hfree₁⟩ (by omega) v
    obtain ⟨m', restored, hreturns, hlist, hitems⟩ := ih hpair₂ (by rw [List.length_cons]; omega)
    refine ⟨m', restored, returns_continue ?_ hreturns, hlist, ?_⟩
    · simp [restoreBody, isEmptyStack_eq h.second, hpop, hpush]
    · simp [hitems]

/-- The memory at the start of the loops: the local stack is empty. -/
theorem IsList.pair_local (h : IsList m p entries) (hpq : p ≠ q) :
    Pair { m with lists := m.lists.put q ⟨0, none⟩ } p q entries [] where
  first := h.frame (Store.put_of_ne _ hpq _) fun _ _ ↦ rfl
  second := ⟨⟨0, none⟩, Store.put_self .., rfl, rfl⟩
  headers := hpq
  nodes _ _ _ hmem := absurd hmem List.not_mem_nil

/-- The number of items is odd. -/
theorem pairwise_odd (h : IsList m p entries) (hodd : ¬Even entries.length) (q fuel : ℕ) :
    isStackPairwiseConsecutive malloc fuel m (some p) q = some (0, m, []) := by
  obtain ⟨l, hl, -, hsize⟩ := h
  have htmod : l.size.tmod 2 = 1 := by
    rw [hsize, Int.tmod_eq_emod_of_nonneg (Int.natCast_nonneg _)]
    rw [Nat.not_even_iff] at hodd
    omega
  simp only [isStackPairwiseConsecutive, hl, Option.bind_eq_bind, Option.bind_some, if_pos htmod,
    Option.pure_def]

/-- The number of items is even. -/
theorem pairwise_even (h : IsList m p entries) (heven : Even entries.length) (q fuel : ℕ) :
    isStackPairwiseConsecutive malloc fuel m (some p) q =
      (whileLoop (takeBody malloc p q) fuel
        { m with lists := m.lists.put q ⟨0, none⟩ }).bind fun r ↦
          if r.1 then (whileLoop (restoreBody malloc p q) fuel r.2).bind fun m' ↦
            (printList fuel m' (some p)).bind fun printed ↦ some (1, m', printed)
          else some (0, r.2, []) := by
  obtain ⟨l, hl, -, hsize⟩ := h
  have htmod : ¬l.size.tmod 2 = 1 := by
    rw [hsize, Int.tmod_eq_emod_of_nonneg (Int.natCast_nonneg _)]
    rw [Nat.even_iff] at heven
    omega
  simp only [isStackPairwiseConsecutive, hl, Option.bind_eq_bind, Option.bind_some, if_neg htmod,
    Option.pure_def]

/-- A stack of pairs that differ by one as `int`s: the call returns 1 and the stack has its items. -/
theorem pairwise_returns_one (hmalloc : Allocates malloc) (h : IsList m p entries) (hpq : p ≠ q)
    (hsmall : (entries.length : ℤ) ≤ intMax) (heven : Even entries.length)
    (htwos : ByTwos IntConsecutive (entries.map Prod.snd)) : ∃ m' printed restored,
      Returns (fun fuel ↦ isStackPairwiseConsecutive malloc fuel m (some p) q) (1, m', printed) ∧
        IsList m' p restored ∧ restored.map Prod.snd = entries.map Prod.snd := by
  obtain ⟨m₁, moved, htake, hpair₁, hmoved⟩ := takeLoop_empties hmalloc (h.pair_local hpq)
    (by rwa [List.length_nil, Nat.add_zero]) heven htwos
  rw [List.map_nil, List.append_nil] at hmoved
  have hlength : moved.length = entries.length := by
    have hlength := congrArg List.length hmoved
    rwa [List.length_reverse, List.length_map, List.length_map] at hlength
  obtain ⟨m₂, restored, hrestore, hlist, hitems⟩ := restoreLoop_returns hmalloc hpair₁
    (by rwa [List.length_nil, Nat.zero_add, hlength])
  rw [hmoved, List.reverse_reverse, List.map_nil, List.append_nil] at hitems
  have hprint : Returns (fun fuel ↦ printList fuel m₂ (some p)) (restored.map Prod.snd) :=
    ⟨restored.length, fun fuel hfuel ↦ printList_eq hlist hfuel⟩
  refine ⟨m₂, restored.map Prod.snd, restored, ?_, hlist, hitems⟩
  simp only [pairwise_even h heven]
  exact htake.bind (hrestore.bind (hprint.bind (returns_const rfl)))

/-- A stack with a pair that does not differ by one as `int`s: the call returns 0 and the stack has
fewer items. -/
theorem pairwise_returns_zero (hmalloc : Allocates malloc) (h : IsList m p entries) (hpq : p ≠ q)
    (hsmall : (entries.length : ℤ) ≤ intMax) (heven : Even entries.length)
    (htwos : ¬ByTwos IntConsecutive (entries.map Prod.snd)) : ∃ m' rest,
      Returns (fun fuel ↦ isStackPairwiseConsecutive malloc fuel m (some p) q) (0, m', []) ∧
        IsList m' p rest ∧ rest.length < entries.length := by
  obtain ⟨m₁, rest, htake, hlist, hless⟩ := takeLoop_leaves hmalloc (h.pair_local hpq)
    (by rwa [List.length_nil, Nat.add_zero]) htwos
  refine ⟨m₁, rest, ?_, hlist, hless⟩
  simp only [pairwise_even h heven]
  exact htake.bind (returns_const rfl)

/-- A call that answers keeps the number of items. -/
theorem Answers.length_eq {call : ℕ → Option (ℤ × Memory × List ℤ)} {code : ℤ} {printed : List ℤ}
    (h : Answers call p items) (hreturns : Returns call (code, m', printed))
    (hlist : IsList m' p entries) : entries.length = items.length := by
  obtain ⟨code', m₁, printed', hreturns', -, entries', hlist', rfl⟩ := h
  have hmemory : m' = m₁ := congrArg (fun result ↦ result.2.1) (hreturns.unique hreturns')
  obtain rfl := hlist.entries_unique (hmemory ▸ hlist')
  rw [List.length_map]

/-- The query answers and keeps the stack if and only if the number of items is odd or the items of
each pair differ by one. -/
theorem pairwiseConsecutive_iff (hmalloc : Allocates malloc) (h : IsList m p entries) (hpq : p ≠ q)
    (hsmall : (entries.length : ℤ) ≤ intMax) :
    Answers (fun fuel ↦ isStackPairwiseConsecutive malloc fuel m (some p) q) p
        (entries.map Prod.snd) ↔
      Odd entries.length ∨ ByTwos Consecutive (entries.map Prod.snd) := by
  rw [← Nat.not_even_iff_odd]
  constructor
  · intro hanswers
    by_contra hnot
    rw [not_or, not_not] at hnot
    by_cases htwos : ByTwos IntConsecutive (entries.map Prod.snd)
    · obtain ⟨m₁, printed₁, restored, hreturns₁, -⟩ :=
        pairwise_returns_one hmalloc h hpq hsmall hnot.1 htwos
      obtain ⟨code, m', printed, hreturns, hcode, -⟩ := hanswers
      have hone : code = 1 := congrArg Prod.fst (hreturns.unique hreturns₁)
      exact hnot.2 (hcode.mp hone).2
    · obtain ⟨m₁, rest, hreturns₁, hlist₁, hless⟩ :=
        pairwise_returns_zero hmalloc h hpq hsmall hnot.1 htwos
      have hlength := hanswers.length_eq hreturns₁ hlist₁
      rw [List.length_map] at hlength
      omega
  · intro hcases
    by_cases heven : Even entries.length
    · have htwos := hcases.resolve_left (not_not.mpr heven)
      obtain ⟨m', printed, restored, hreturns, hlist, hitems⟩ :=
        pairwise_returns_one hmalloc h hpq hsmall heven (htwos.imp fun _ _ ↦ Consecutive.int)
      refine ⟨1, m', printed, hreturns, iff_of_true rfl ⟨?_, htwos⟩, restored, hlist, hitems⟩
      rwa [List.length_map]
    · refine ⟨0, m, [], ⟨0, fun fuel _ ↦ pairwise_odd h heven q fuel⟩,
        iff_of_false zero_ne_one ?_, entries, h, rfl⟩
      rw [List.length_map]
      exact fun hboth ↦ heven hboth.1

/-- A stack of the items 16 and 15. -/
theorem pairwiseConsecutive_iff_two : Answers (fun fuel ↦
    isStackPairwiseConsecutive firstFree fuel (twoItems 16 15) (some 0) 1) 0 [16, 15] :=
  (pairwiseConsecutive_iff allocates_firstFree (isList_twoItems 16 15) Nat.zero_ne_one
    (by decide)).mpr (Or.inr ⟨show |(16 : ℤ) - 15| = 1 by decide, trivial⟩)

/-- The items 16 and 14 are lost. -/
theorem not_pairwiseConsecutive : ¬∀ (malloc : Memory → ℕ) (m : Memory) (p q : ℕ)
    (entries : List (ℕ × ℤ)), Allocates malloc → IsList m p entries → p ≠ q →
      (entries.length : ℤ) ≤ intMax →
        Answers (fun fuel ↦ isStackPairwiseConsecutive malloc fuel m (some p) q) p
          (entries.map Prod.snd) := by
  intro hall
  have hanswers := hall firstFree (twoItems 16 14) 0 1 _ allocates_firstFree
    (isList_twoItems 16 14) Nat.zero_ne_one (by decide)
  have hdiffer : ¬IntConsecutive 16 14 := by
    unfold IntConsecutive
    decide
  obtain ⟨m₁, rest, hreturns₁, hlist₁, hless⟩ := pairwise_returns_zero allocates_firstFree
    (isList_twoItems 16 14) Nat.zero_ne_one (by decide) (by decide) fun htwos ↦ hdiffer htwos.1
  exact absurd (hanswers.length_eq hreturns₁ hlist₁) (Nat.ne_of_lt hless)

end Jungle.LinkedLists
