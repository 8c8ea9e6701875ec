import Jungle.LinkedLists.TwoLists

/-!
# Merging two lists alternately

`alternateMergeLinkedList` moves the items of the second list between those of the first one, with one
`insertNode` and one `removeNode` a round. A round moves one item (`Pair.round`), and the loop alternates the items
(`mergeLoop_returns`) as long as the first list can grow: its counter is never greater than
`INT_MAX` (`Bounded`), and the returned code of `insertNode` is not looked at.
-/

set_option autoImplicit false
set_option relaxedAutoImplicit false

namespace Jungle.LinkedLists

open Jungle.Lib

/-- The state of the loop of `alternateMergeLinkedList`. -/
structure Merge where
  memory : Memory
  first : Option ℕ
  second : Option ℕ
  idx : ℤ

/-- `node ? node->next : NULL` -/
def nextOrNull (nodes : Store ListNode) : Option ℕ → Option (Option ℕ)
  | some a => (nodes a).map ListNode.next
  | none => some none

/-- One round of the loop of `alternateMergeLinkedList`; `malloc` is the address of the next node that
is allocated. -/
def mergeBody (malloc : Memory → ℕ) (ll1 ll2 : ℕ) (s : Merge) : Option (Merge ⊕ Memory) :=
  match s.first, s.second with
  | some first, some second => do
    let item := (← s.memory.nodes second).item
    let (_, m) ← insertNode s.memory (some ll1) s.idx item (malloc s.memory)
    let first ← nextOrNull m.nodes (← m.nodes first).next
    let second := (← m.nodes second).next
    let (_, m) ← removeNode m (some ll2) 0
    return .inl ⟨m, first, second, int32 (s.idx + 2)⟩
  | _, _ => some (.inr s.memory)

/-- `alternateMergeLinkedList(ll1, ll2)` -/
def alternateMergeLinkedList (malloc : Memory → ℕ) (fuel : ℕ) (m : Memory) (ll1 ll2 : Option ℕ) :
    Option Memory :=
  match ll1, ll2 with
  | some p, some q => do
    let l ← m.lists p
    let l' ← m.lists q
    if l.head = none ∨ l'.head = none then return m
    whileLoop (mergeBody malloc p q) fuel ⟨m, l.head, l'.head, 1⟩
  | _, _ => some m

/-- The items of two lists in turn, as long as there are both, and then those of the first. -/
def alternate : List ℤ → List ℤ → List ℤ
  | v :: items, w :: others => v :: w :: alternate items others
  | items, [] => items
  | [], _ => []

/-- The items of the lists in turn, and what is left of the second list. -/
def Alternated (m : Memory) (p q : ℕ) (items others : List ℤ) : Prop :=
  ∃ entries rest, Pair m p q entries rest ∧ entries.map Prod.snd = alternate items others ∧
    rest.map Prod.snd = others.drop (min items.length others.length)

variable {malloc : Memory → ℕ} {m m' : Memory} {p q a b : ℕ} {v w : ℤ}
  {entries others front rest : List (ℕ × ℤ)} {s : Merge}

theorem length_alternate (items others : List ℤ) :
    (alternate items others).length = items.length + min items.length others.length := by
  induction items, others using alternate.induct with
  | case1 v items w others ih =>
    simp only [alternate, List.length_cons, ih]
    omega
  | case2 items => cases items <;> simp [alternate]
  | case3 others hne => cases others <;> simp [alternate]

/-- A round moves the first item of the second list behind the next item of the first list. -/
theorem Pair.round (hmalloc : Allocates malloc) (hfree : ∃ a, s.memory.nodes a = none)
    (h : Pair s.memory p q (front ++ (a, v) :: rest) ((b, w) :: others))
    (hroom : ((front ++ (a, v) :: rest).length : ℤ) < intMax)
    (hsmall : (((b, w) :: others).length : ℤ) ≤ intMax) (hfirst : s.first = some a)
    (hsecond : s.second = some b) (hidx : s.idx = front.length + 1) :
    ∃ new m', mergeBody malloc p q s = some (.inl ⟨m', (rest.map Prod.fst).head?,
        (others.map Prod.fst).head?, int32 (front.length + 3)⟩) ∧
      Pair m' p q (front ++ (a, v) :: (new, w) :: rest) others ∧ ∃ a, m'.nodes a = none := by
  have hsecondList : IsList s.memory q ([] ++ (b, w) :: others) := h.second
  obtain ⟨nodeB, hnodeB, hitemB, hnextB⟩ := hsecondList.exists_node
  have hnew : s.memory.nodes (malloc s.memory) = none := hmalloc s.memory hfree
  have hindex : 0 ≤ (front.length + 1 : ℤ) ∧
      (front.length + 1 : ℤ) ≤ (front ++ (a, v) :: rest).length := by
    rw [List.length_append, List.length_cons]
    omega
  obtain ⟨m₁, hinsert, hlist₁, hlists₁, hnodes₁⟩ :=
    insertNode_eq_of_mem h.first hroom hindex w hnew
  rw [show (front.length + 1 : ℤ).toNat = front.length + 1 by omega, insertIdx_after] at hlist₁
  obtain ⟨nodeA, hnodeA, -, hnextA⟩ := hlist₁.exists_node
  have hlistNew : IsList m₁ p ((front ++ [(a, v)]) ++ (malloc s.memory, w) :: rest) := by
    rw [List.append_assoc]
    exact hlist₁
  obtain ⟨nodeNew, hnodeNew, -, hnextNew⟩ := hlistNew.exists_node
  have hfresh : ∀ e ∈ (b, w) :: others, e.1 ≠ malloc s.memory := fun e he heq ↦
    h.second.not_mem_of_free hnew (heq ▸ List.mem_map_of_mem he)
  have hkeep : ∀ e ∈ (b, w) :: others, m₁.nodes e.1 = s.memory.nodes e.1 := fun e he ↦
    hnodes₁ e.1 fun hmem ↦ (List.mem_cons.mp hmem).elim (hfresh e he) (h.not_mem he)
  have hsecond₁ : IsList m₁ q ((b, w) :: others) :=
    h.second.frame (hlists₁ q h.headers.symm) hkeep
  obtain ⟨m₂, hremove, hlist₂, ⟨hlists₂, hnodes₂⟩, hfree₂⟩ := removeNode_head hsecond₁ hsmall
  have hapart : ∀ e ∈ front ++ (a, v) :: (malloc s.memory, w) :: rest,
      ∀ e' ∈ (b, w) :: others, e.1 ≠ e'.1 := by
    intro e he e' he'
    simp only [List.mem_append, List.mem_cons] at he
    rcases he with he | rfl | rfl | he
    · exact h.nodes e (List.mem_append_left _ he) e' he'
    · exact h.nodes _ (by simp) e' he'
    · exact (hfresh e' he').symm
    · exact h.nodes e (by simp [he]) e' he'
  have hfirst₂ : IsList m₂ p (front ++ (a, v) :: (malloc s.memory, w) :: rest) := by
    refine hlist₁.frame (hlists₂ p h.headers) fun e he ↦ hnodes₂ e.1 fun hmem ↦ ?_
    obtain ⟨e', he', heq⟩ := List.mem_map.mp hmem
    exact hapart e he e' he' heq.symm
  refine ⟨malloc s.memory, m₂, ?_, ⟨hfirst₂, hlist₂, h.headers, fun e he e' he' ↦ ?_⟩, b, hfree₂⟩
  · have hnodeB₁ : m₁.nodes b = some nodeB := (hkeep (b, w) List.mem_cons_self).trans hnodeB
    simp only [mergeBody, hfirst, hsecond, hnodeB, hitemB, hidx, hinsert, hnodeA, hnextA,
      List.map_cons, List.head?_cons, nextOrNull, hnodeNew, hnextNew, hnodeB₁, hnextB, hremove,
      Option.bind_eq_bind, Option.bind_some, Option.map_some, Option.pure_def, Int.add_assoc]
    rfl
  · exact hapart e he e' (List.mem_cons_of_mem _ he')

/-- The loop alternates the items. -/
theorem mergeLoop_returns (hmalloc : Allocates malloc) (hfree : ∃ a, s.memory.nodes a = none)
    (h : Pair s.memory p q (front ++ rest) others)
    (hroom : (((front ++ rest).length + min rest.length others.length : ℕ) : ℤ) ≤ intMax)
    (hsmall : (others.length : ℤ) ≤ intMax) (hfirst : s.first = (rest.map Prod.fst).head?)
    (hsecond : s.second = (others.map Prod.fst).head?)
    (hidx : s.idx = int32 (front.length + 1)) :
    ∃ m' rest', Returns (fun fuel ↦ whileLoop (mergeBody malloc p q) fuel s) m' ∧
      Pair m' p q (front ++ rest') (others.drop (min rest.length others.length)) ∧
      rest'.map Prod.snd = alternate (rest.map Prod.snd) (others.map Prod.snd) := by
  induction rest generalizing front others s with
  | nil =>
    refine ⟨s.memory, [], returns_leave ?_, by simpa using h, ?_⟩
    · rw [mergeBody, hfirst]
      rfl
    · cases others <;> rfl
  | cons entry rest ih =>
    obtain ⟨a, v⟩ := entry
    cases others with
    | nil =>
      refine ⟨s.memory, (a, v) :: rest, returns_leave ?_, by simpa using h, rfl⟩
      rw [mergeBody, hfirst, hsecond]
      rfl
    | cons entry others =>
      obtain ⟨b, w⟩ := entry
      simp only [List.length_append, List.length_cons] at hroom hsmall
      have hidx' : s.idx = front.length + 1 := by
        rw [hidx]
        exact int32_of_mem (by unfold intMin; omega) (by omega)
      obtain ⟨new, m', hbody, hpair, hfree'⟩ := h.round hmalloc hfree
        (by simp only [List.length_append, List.length_cons]; omega)
        (by simp only [List.length_cons]; omega) hfirst hsecond hidx'
      rw [List.append_cons, List.append_cons] at hpair
      let next : Merge := ⟨m', (rest.map Prod.fst).head?, (others.map Prod.fst).head?,
        int32 (front.length + 3)⟩
      have hnext : next.idx = int32 ((front ++ [(a, v)] ++ [(new, w)]).length + 1) := by
        simp only [next, List.length_append, List.length_singleton]
        congr 1
      obtain ⟨m'', rest', hreturns, hpair', hitems⟩ := ih (s := next) hfree' hpair
        (by simp only [List.length_append, List.length_singleton]; omega) (by omega) rfl rfl hnext
      refine ⟨m'', (a, v) :: (new, w) :: rest', returns_continue hbody hreturns, ?_, ?_⟩
      · rw [List.append_assoc, List.append_assoc] at hpair'
        rw [List.length_cons, List.length_cons, Nat.add_min_add_right, List.drop_succ_cons]
        exact hpair'
      · simp only [List.map_cons, alternate, hitems]

/-- The call alternates the items if the first list can take them. -/
theorem Pair.returns (hmalloc : Allocates malloc) (hfree : ∃ a, m.nodes a = none)
    (h : Pair m p q entries others) (hsmall : (others.length : ℤ) ≤ intMax)
    (hroom : ((entries.length + min entries.length others.length : ℕ) : ℤ) ≤ intMax) :
    ∃ m', Returns (fun fuel ↦ alternateMergeLinkedList malloc fuel m (some p) (some q)) m' ∧
      Alternated m' p q (entries.map Prod.snd) (others.map Prod.snd) := by
  obtain ⟨l, hl, hnodes, -⟩ := h.first
  obtain ⟨l', hl', hnodes', -⟩ := h.second
  have hidx : (1 : ℤ) = int32 (([] : List (ℕ × ℤ)).length + 1) := by decide
  have hpair : Pair (⟨m, l.head, l'.head, 1⟩ : Merge).memory p q ([] ++ entries) others := h
  obtain ⟨m', rest', hreturns, hpair', hitems⟩ := mergeLoop_returns hmalloc hfree hpair hroom hsmall
    hnodes.head_eq hnodes'.head_eq hidx
  by_cases hempty : l.head = none ∨ l'.head = none
  · have hleave : mergeBody malloc p q ⟨m, l.head, l'.head, 1⟩ = some (.inr m) := by
      rcases hempty with hnone | hnone
      · rw [mergeBody, hnone]
      · rw [mergeBody, hnone]
        cases l.head <;> rfl
    obtain rfl := hreturns.unique (returns_leave hleave)
    refine ⟨m', ⟨0, fun fuel _ ↦ ?_⟩, rest', _, hpair', hitems, ?_⟩
    · simp only [alternateMergeLinkedList, hl, hl', Option.bind_eq_bind, Option.bind_some,
        if_pos hempty, Option.pure_def]
    · rw [List.map_drop, List.length_map, List.length_map]
  · refine ⟨m', ?_, rest', _, hpair', hitems, ?_⟩
    · simp only [alternateMergeLinkedList, hl, hl', Option.bind_eq_bind, Option.bind_some,
        if_neg hempty]
      exact hreturns
    · rw [List.map_drop, List.length_map, List.length_map]

/-! ### A list that cannot grow -/

/-- The counter of the list at `p` is an `int`. -/
def Bounded (p : ℕ) (m : Memory) : Prop := ∀ l, m.lists p = some l → l.size ≤ intMax

theorem Bounded.put {l : LinkedList} {nodes : Store ListNode} (h : Bounded p m)
    (hl : l.size ≤ intMax) : Bounded p ⟨m.lists.put q l, nodes⟩ := by
  intro l' hl'
  by_cases hpq : p = q
  · subst hpq
    obtain rfl := Option.some.inj ((Store.put_self m.lists p l).symm.trans hl')
    exact hl
  · exact h l' ((Store.put_of_ne m.lists hpq l).symm.trans hl')

/-- `insertNode` leaves the counters in the range of an `int`. -/
theorem Bounded.of_insertNode {index value code : ℤ} {new : ℕ} (h : Bounded p m)
    (hcall : insertNode m (some q) index value new = some (code, m')) : Bounded p m' := by
  obtain ⟨l, hl, hcall⟩ := Option.bind_eq_some_iff.mp hcall
  split_ifs at hcall
  · obtain rfl := congrArg Prod.snd (Option.some.inj hcall)
    exact h
  · obtain rfl := congrArg Prod.snd (Option.some.inj hcall)
    exact h.put (int32_le _)
  · obtain ⟨pre, hpre, hcall⟩ := Option.bind_eq_some_iff.mp hcall
    cases pre with
    | none =>
      obtain rfl := congrArg Prod.snd (Option.some.inj hcall)
      exact h
    | some pre =>
      obtain ⟨node, hnode, hcall⟩ := Option.bind_eq_some_iff.mp hcall
      obtain rfl := congrArg Prod.snd (Option.some.inj hcall)
      exact h.put (int32_le _)

/-- `removeNode` leaves the counters in the range of an `int`. -/
theorem Bounded.of_removeNode {index code : ℤ} (h : Bounded p m)
    (hcall : removeNode m (some q) index = some (code, m')) : Bounded p m' := by
  obtain ⟨l, hl, hcall⟩ := Option.bind_eq_some_iff.mp hcall
  split_ifs at hcall
  · obtain rfl := congrArg Prod.snd (Option.some.inj hcall)
    exact h
  · obtain ⟨head, hhead, hcall⟩ := Option.bind_eq_some_iff.mp hcall
    obtain ⟨node, hnode, hcall⟩ := Option.bind_eq_some_iff.mp hcall
    obtain rfl := congrArg Prod.snd (Option.some.inj hcall)
    exact h.put (int32_le _)
  · obtain ⟨pre, hpre, hcall⟩ := Option.bind_eq_some_iff.mp hcall
    cases pre with
    | none =>
      obtain rfl := congrArg Prod.snd (Option.some.inj hcall)
      exact h
    | some pre =>
      obtain ⟨node, hnode, hcall⟩ := Option.bind_eq_some_iff.mp hcall
      split at hcall
      · obtain rfl := congrArg Prod.snd (Option.some.inj hcall)
        exact h
      · obtain ⟨curNode, hcurNode, hcall⟩ := Option.bind_eq_some_iff.mp hcall
        obtain rfl := congrArg Prod.snd (Option.some.inj hcall)
        exact h.put (int32_le _)

/-- A round leaves the counters in the range of an `int`. -/
theorem Bounded.of_mergeBody {result : Merge ⊕ Memory} (h : Bounded p s.memory)
    (hbody : mergeBody malloc a b s = some result) :
    Bounded p (result.elim Merge.memory id) := by
  unfold mergeBody at hbody
  split at hbody
  · obtain ⟨node, hnode, hbody⟩ := Option.bind_eq_some_iff.mp hbody
    obtain ⟨⟨code, m₁⟩, hinsert, hbody⟩ := Option.bind_eq_some_iff.mp hbody
    obtain ⟨node₁, hnode₁, hbody⟩ := Option.bind_eq_some_iff.mp hbody
    obtain ⟨first, hfirst, hbody⟩ := Option.bind_eq_some_iff.mp hbody
    obtain ⟨node₂, hnode₂, hbody⟩ := Option.bind_eq_some_iff.mp hbody
    obtain ⟨⟨code', m₂⟩, hremove, hbody⟩ := Option.bind_eq_some_iff.mp hbody
    obtain rfl := Option.some.inj hbody
    exact (h.of_insertNode hinsert).of_removeNode hremove
  · obtain rfl := Option.some.inj hbody
    exact h

/-- A call leaves the counters in the range of an `int`. -/
theorem Bounded.of_alternateMergeLinkedList {fuel : ℕ} (h : Bounded p m)
    (hcall : alternateMergeLinkedList malloc fuel m (some a) (some b) = some m') : Bounded p m' := by
  obtain ⟨l, hl, hcall⟩ := Option.bind_eq_some_iff.mp hcall
  obtain ⟨l', hl', hcall⟩ := Option.bind_eq_some_iff.mp hcall
  split_ifs at hcall
  · obtain rfl := Option.some.inj hcall
    exact h
  · have hgo : ∀ s s' : Merge, Bounded p s.memory →
        mergeBody malloc a b s = some (.inl s') → Bounded p s'.memory :=
      fun s s' hs hbody ↦ hs.of_mergeBody hbody
    have hleave : ∀ (s : Merge) (result : Memory), Bounded p s.memory →
        mergeBody malloc a b s = some (.inr result) → Bounded p result :=
      fun s result hs hbody ↦ hs.of_mergeBody hbody
    exact whileLoop_invariant hgo hleave h hcall

/-- The call does not alternate items that the first list cannot take. -/
theorem Pair.not_alternated (h : Pair m p q entries others) (hsmall : (entries.length : ℤ) ≤ intMax)
    (hover : ¬((entries.length + min entries.length others.length : ℕ) : ℤ) ≤ intMax)
    (hreturns : Returns (fun fuel ↦ alternateMergeLinkedList malloc fuel m (some p) (some q)) m') :
    ¬Alternated m' p q (entries.map Prod.snd) (others.map Prod.snd) := by
  rintro ⟨entries', rest, hpair, hitems, -⟩
  have hbounded : Bounded p m := fun l hl ↦ by
    obtain ⟨l', hl', -, hsize⟩ := h.first
    obtain rfl := Option.some.inj (hl.symm.trans hl')
    exact hsize ▸ hsmall
  obtain ⟨bound, hbound⟩ := hreturns
  have hbounded' := hbounded.of_alternateMergeLinkedList (hbound (bound + 1) (Nat.lt_succ_self bound))
  obtain ⟨l', hl', -, hsize'⟩ := hpair.first
  have hlength := congrArg List.length hitems
  rw [length_alternate, List.length_map, List.length_map, List.length_map] at hlength
  have hle := hbounded' l' hl'
  rw [hsize', hlength] at hle
  exact hover hle

/-- The call alternates the items if and only if the first list with its new items has not more than
`INT_MAX` nodes. -/
theorem alternate_iff (hmalloc : Allocates malloc) (hfree : ∃ a, m.nodes a = none)
    (h : Pair m p q entries others) (hsmall : (entries.length : ℤ) ≤ intMax)
    (hsmall' : (others.length : ℤ) ≤ intMax) :
    (∃ m', Returns (fun fuel ↦ alternateMergeLinkedList malloc fuel m (some p) (some q)) m' ∧
      Alternated m' p q (entries.map Prod.snd) (others.map Prod.snd)) ↔
      ((entries.length + min entries.length others.length : ℕ) : ℤ) ≤ intMax := by
  constructor
  · rintro ⟨m', hreturns, halternated⟩
    by_contra hover
    exact h.not_alternated hsmall hover hreturns halternated
  · exact h.returns hmalloc hfree hsmall'

/-! ### Lists of consecutive nodes -/

/-- Nodes at consecutive addresses that hold zeros. -/
def zeros (first count : ℕ) : List (ℕ × ℤ) := (List.range' first count).map fun a ↦ (a, 0)

/-- A list of `count` zeros at the nodes from 0 on, and one of a seven at the node `count`. -/
def longPair (count : ℕ) : Memory where
  lists := (Store.empty.put 0 ⟨count, if 0 < count then some 0 else none⟩).put 1 ⟨1, some count⟩
  nodes a :=
    if a < count then some ⟨0, if a + 1 < count then some (a + 1) else none⟩
    else if a = count then some ⟨7, none⟩ else none

theorem nodes_zeros {nodes : Store ListNode} {first count : ℕ}
    (hnodes : ∀ a, first ≤ a → a < first + count →
      nodes a = some ⟨0, if a + 1 < first + count then some (a + 1) else none⟩) :
    Nodes nodes (if 0 < count then some first else none) (zeros first count) none := by
  induction count generalizing first with
  | zero => rfl
  | succ count ih =>
    refine ⟨if_pos (Nat.succ_pos count), _, hnodes first le_rfl (by omega), rfl, ?_⟩
    have hstart : (if first + 1 < first + (count + 1) then some (first + 1) else none) =
        if 0 < count then some (first + 1) else none := if_congr (by omega) rfl rfl
    dsimp only
    rw [hstart]
    refine ih fun a ha ha' ↦ ?_
    rw [hnodes a (by omega) (by omega), show first + (count + 1) = first + 1 + count by omega]

theorem pair_longPair (count : ℕ) : Pair (longPair count) 0 1 (zeros 0 count) [(count, 7)] where
  first := by
    refine ⟨_, rfl, nodes_zeros fun a _ ha ↦ ?_, by simp [zeros]⟩
    rw [Nat.zero_add] at ha ⊢
    exact if_pos ha
  second := ⟨_, rfl, ⟨rfl, ⟨7, none⟩, by simp [longPair], rfl, rfl⟩, rfl⟩
  headers := Nat.zero_ne_one
  nodes e he e' he' := by
    obtain rfl := List.mem_singleton.mp he'
    obtain ⟨a, ha, rfl⟩ := List.mem_map.mp he
    rw [List.mem_range'_1] at ha
    exact Nat.ne_of_lt (by omega)

theorem free_longPair (count : ℕ) : ∃ a, (longPair count).nodes a = none :=
  ⟨count + 1, by simp [longPair]⟩

/-- Two zeros and a seven. -/
theorem alternate_iff_two : ∃ m',
    Returns (fun fuel ↦ alternateMergeLinkedList firstFree fuel (longPair 2) (some 0) (some 1)) m' ∧
      Alternated m' 0 1 [0, 0] [7] :=
  (alternate_iff allocates_firstFree (free_longPair 2) (pair_longPair 2) (by decide)
    (by decide)).mpr (by decide)

/-- A list of `INT_MAX` nodes takes no item. -/
theorem not_alternate : ¬∀ (malloc : Memory → ℕ) (m : Memory) (p q : ℕ)
    (entries others : List (ℕ × ℤ)), Allocates malloc → (∃ a, m.nodes a = none) →
      Pair m p q entries others → (entries.length : ℤ) ≤ intMax → (others.length : ℤ) ≤ intMax →
        ∃ m', Returns (fun fuel ↦ alternateMergeLinkedList malloc fuel m (some p) (some q)) m' ∧
          Alternated m' p q (entries.map Prod.snd) (others.map Prod.snd) := by
  intro hall
  have hlength : (zeros 0 2147483647).length = 2147483647 := by simp [zeros]
  have hsmall : ((zeros 0 2147483647).length : ℤ) ≤ intMax := by
    rw [hlength]
    exact le_rfl
  obtain ⟨m', hreturns, halternated⟩ := hall firstFree (longPair 2147483647) 0 1 _ _
    allocates_firstFree (free_longPair _) (pair_longPair _) hsmall (by decide)
  refine (pair_longPair 2147483647).not_alternated hsmall ?_ hreturns halternated
  rw [hlength]
  decide

end Jungle.LinkedLists
