import Jungle.KernelList.Sequences
import Jungle.Lib.Run

/-!
# Runs of the list functions

A run initialises lists and then calls `list_push_front`, `list_push_back`, `list_insert`,
`list_remove`, `list_pop_front`, `list_pop_back`, `list_splice` and `list_reverse` on them. The state
of a run is the cells together with the sequences that the calls so far have made of the empty ones.
`run_holds_sequences` says that the lists hold these sequences and that the next call does what it says.
-/

set_option autoImplicit false
set_option relaxedAutoImplicit false

namespace Jungle.KernelList

open Jungle.Lib

/-- The calls. Where a function is given cells only, the call names the lists they are in too. -/
inductive Call (ι : Type*)
  | pushFront (list : ι) (elem : ℕ)
  | pushBack (list : ι) (elem : ℕ)
  | insert (list : ι) (before elem : ℕ)
  | remove (list : ι) (elem : ℕ)
  | popFront (list : ι)
  | popBack (list : ι)
  | splice (src dst : ι) (before first last : ℕ)
  | reverse (list : ι)

variable {ι : Type*} [DecidableEq ι]

/-- What a call returns, if anything, and the cells after it. -/
def Call.exec (lists : ι → KList) (m : Elems) (fuel : ℕ) : Call ι → Option (Option ℕ × Elems)
  | .pushFront i elem => (listPushFront m (lists i) elem).map (none, ·)
  | .pushBack i elem => (listPushBack m (lists i) elem).map (none, ·)
  | .insert _ before elem => (listInsert m before elem).map (none, ·)
  | .remove _ elem => listRemove m elem
  | .popFront i => (listPopFront m (lists i)).map fun result ↦ (some result.1, result.2)
  | .popBack i => (listPopBack m (lists i)).map fun result ↦ (some result.1, result.2)
  | .splice _ _ before first last => (listSplice m before first last).map (none, ·)
  | .reverse i => (listReverse fuel m (lists i)).map (none, ·)

/-- Valid arguments: an element to insert is in no list, one to remove is in the list, and the cells
of a range are in order in a list and do not include the cell it is put in front of. -/
def Call.Valid (lists : ι → KList) (m : Elems) (σ : ι → List ℕ) : Call ι → Prop
  | .pushFront _ elem => (m elem).isSome ∧ InNoList lists σ elem
  | .pushBack _ elem => (m elem).isSome ∧ InNoList lists σ elem
  | .insert i before elem =>
    (m elem).isSome ∧ InNoList lists σ elem ∧ before ∈ σ i ++ [(lists i).tail]
  | .remove i elem => elem ∈ σ i
  | .popFront i => σ i ≠ []
  | .popBack i => σ i ≠ []
  | .splice src dst before first last =>
    last ∈ (σ src ++ [(lists src).tail]).dropWhile (· ≠ first) ∧
      before ∉ range (σ src) first last ∧ before ∈ σ dst ++ [(lists dst).tail]
  | .reverse _ => True

/-- What a call makes of the sequences. -/
def Call.apply (σ : ι → List ℕ) : Call ι → ι → List ℕ
  | .pushFront i elem => Function.update σ i (elem :: σ i)
  | .pushBack i elem => Function.update σ i (σ i ++ [elem])
  | .insert i before elem => Function.update σ i (insertBefore (σ i) before [elem])
  | .remove i elem => Function.update σ i ((σ i).erase elem)
  | .popFront i => Function.update σ i (σ i).tail
  | .popBack i => Function.update σ i (σ i).dropLast
  | .splice src dst before first last =>
    let rest := Function.update σ src (outside (σ src) first last)
    Function.update rest dst (insertBefore (rest dst) before (range (σ src) first last))
  | .reverse i => Function.update σ i (σ i).reverse

/-- What a call returns: `list_remove` the cell after the element, the pops the element. -/
def Call.result (lists : ι → KList) (σ : ι → List ℕ) : Call ι → Option ℕ
  | .remove i elem => ((σ i ++ [(lists i).tail]).dropWhile (· ≠ elem)).tail.head?
  | .popFront i => (σ i).head?
  | .popBack i => (σ i).getLast?
  | _ => none

/-- The elements met on the way from the head to the tail, and back, are those of a sequence. -/
structure IsList (m : Elems) (list : KList) (seq : List ℕ) : Prop where
  forward : (list.head :: (seq ++ [list.tail])).IsChain fun a b ↦ next m a = some (some b)
  backward : (list.tail :: (seq.reverse ++ [list.head])).IsChain fun a b ↦
    prev m a = some (some b)
  first : prev m list.head = some none
  last : next m list.tail = some none

/-- The lists are well formed and hold the sequences, and an element is in one list at most and there
once. -/
structure WellFormed (lists : ι → KList) (m : Elems) (σ : ι → List ℕ) : Prop where
  isList : ∀ i, IsList m (lists i) (σ i)
  nodup : ∀ i, (σ i).Nodup
  disjoint : ∀ i j, i ≠ j → (σ i).Disjoint (σ j)

/-- A call returns the right element and leaves well formed lists that hold the right sequences. -/
def Conforms (lists : ι → KList) (m : Elems) (σ : ι → List ℕ) (call : Call ι) : Prop :=
  ∃ m', Returns (fun fuel ↦ call.exec lists m fuel) (call.result lists σ, m') ∧
    WellFormed lists m' (call.apply σ)

/-- The heads and the tails of the lists are different cells. -/
structure Headers (lists : ι → KList) (m : Elems) : Prop where
  allocated : ∀ i, (m (lists i).head).isSome ∧ (m (lists i).tail).isSome
  distinct : ∀ i, (lists i).head ≠ (lists i).tail
  disjoint : ∀ i j, i ≠ j →
    [(lists i).head, (lists i).tail].Disjoint [(lists j).head, (lists j).tail]

/-- `list_init` on one list after the other. -/
def initLists (lists : ι → KList) (m : Elems) (order : List ι) : Option Elems :=
  order.foldlM (fun m i ↦ listInit m (lists i)) m

/-- A valid call that returns; the sequences are changed as it says. -/
def Step (lists : ι → KList) (s : Elems × (ι → List ℕ)) (call : Call ι)
    (s' : Elems × (ι → List ℕ)) : Prop :=
  call.Valid lists s.1 s.2 ∧ s'.2 = call.apply s.2 ∧
    ∃ result, Returns (fun fuel ↦ call.exec lists s.1 fuel) (result, s'.1)

/-- A call returns the right element, and the lists hold the right sequences. -/
def Executes (lists : ι → KList) (m : Elems) (σ : ι → List ℕ) (call : Call ι) : Prop :=
  ∃ m', Returns (fun fuel ↦ call.exec lists m fuel) (call.result lists σ, m') ∧
    Holds lists m' (call.apply σ)

variable {lists : ι → KList} {σ : ι → List ℕ} {m m' : Elems} {i : ι} {elem before e : ℕ}
  {F B elems : List ℕ}

/-! ### Inserting -/

/-- `list_insert` inserts. -/
theorem holds_insert (h : Holds lists m σ) (hbefore : before ∈ σ i ++ [(lists i).tail])
    (helem : (m elem).isSome) (hout : InNoList lists σ elem) : ∃ m',
      listInsert m before elem = some m' ∧
        Holds lists m' (Function.update σ i (insertBefore (σ i) before [elem])) := by
  obtain ⟨F, x, B, hnodes, hinsert⟩ := h.split hbefore
  have hring := h.ring i
  have hnodup := h.nodup i
  have hmem := hout i
  rw [hnodes] at hring hnodup hmem
  have hnodup' : (F ++ x :: elem :: before :: B).Nodup := by grind
  obtain ⟨m', hcall, hring', hedits⟩ := listInsert_ring hring hnodup' helem
  have hnew : nodes (lists i) (insertBefore (σ i) before [elem]) = F ++ x :: elem :: before :: B :=
    hinsert [elem]
  refine ⟨m', hcall, h.update (hnew ▸ hring') (hnew ▸ hnodup') (fun a ha ↦ ?_) hedits fun a ha ↦ ?_⟩
  · rcases mem_insertBefore.mp ha with hmem | hold
    · exact Or.inr (List.mem_singleton.mp hmem ▸ hout)
    · exact Or.inl hold
  · rw [hnodes]
    simp only [List.mem_cons, List.not_mem_nil, or_false] at ha
    rcases ha with rfl | rfl | rfl
    · exact Or.inl (by simp)
    · exact Or.inr hout
    · exact Or.inl (by simp)

theorem holds_pushBack (h : Holds lists m σ) (helem : (m elem).isSome)
    (hout : InNoList lists σ elem) : ∃ m', listPushBack m (lists i) elem = some m' ∧
      Holds lists m' (Function.update σ i (σ i ++ [elem])) := by
  have htail : (lists i).tail ∈ σ i ++ [(lists i).tail] := by simp
  obtain ⟨m', hcall, hholds⟩ := holds_insert h htail helem hout
  refine ⟨m', hcall, ?_⟩
  rwa [insertBefore_tail h.tail_not_mem] at hholds

theorem holds_pushFront (h : Holds lists m σ) (helem : (m elem).isSome)
    (hout : InNoList lists σ elem) : ∃ m', listPushFront m (lists i) elem = some m' ∧
      Holds lists m' (Function.update σ i (elem :: σ i)) := by
  obtain ⟨first, back, hfirst⟩ : ∃ first back, σ i ++ [(lists i).tail] = first :: back :=
    List.exists_cons_of_ne_nil (by simp)
  have hmem : first ∈ σ i ++ [(lists i).tail] := hfirst ▸ List.mem_cons_self
  obtain ⟨m', hcall, hholds⟩ := holds_insert h hmem helem hout
  have hring : Ring m ([] ++ (lists i).head :: first :: back) := by
    rw [← hfirst]
    exact h.ring i
  refine ⟨m', ?_, ?_⟩
  · simp only [listPushFront, listBegin, hring.next_eq, Option.bind_eq_bind, Option.bind_some, hcall]
  · rwa [insertBefore_first h.tail_not_mem hfirst] at hholds

/-! ### Removing -/

/-- `list_remove` removes. -/
theorem holds_remove (h : Holds lists m σ) (hσ : σ i = F ++ e :: B) : ∃ m' y,
    listRemove m e = some (some y, m') ∧ (B ++ [(lists i).tail]).head? = some y ∧
      Holds lists m' (Function.update σ i (F ++ B)) := by
  obtain ⟨front, x, hx⟩ := exists_concat (lists i).head F
  obtain ⟨y, back, hy⟩ : ∃ y back, B ++ [(lists i).tail] = y :: back :=
    List.exists_cons_of_ne_nil (by simp)
  have hnodes : nodes (lists i) (σ i) = front ++ x :: e :: y :: back := by
    rw [nodes, hσ, List.append_assoc, List.cons_append, hy, ← List.cons_append, hx,
      List.append_assoc, List.singleton_append]
  have hnodes' : nodes (lists i) (F ++ B) = front ++ x :: y :: back := by
    rw [nodes, List.append_assoc, hy, ← List.cons_append, hx, List.append_assoc,
      List.singleton_append]
  have hring := h.ring i
  have hnodup := h.nodup i
  rw [hnodes] at hring hnodup
  obtain ⟨m', hcall, hring', hedits⟩ := listRemove_ring hring hnodup
  have hnodup' : (front ++ x :: y :: back).Nodup := by grind
  refine ⟨m', y, hcall, by rw [hy, List.head?_cons], h.update (hnodes' ▸ hring')
    (hnodes' ▸ hnodup') (fun a ha ↦ Or.inl ?_) hedits fun a ha ↦ Or.inl ?_⟩
  · rw [hσ]
    exact List.append_sublist_append_left F |>.mpr (List.sublist_cons_self e B) |>.subset ha
  · rw [hnodes]
    simp only [List.mem_cons, List.not_mem_nil, or_false] at ha
    rcases ha with rfl | rfl <;> simp

theorem holds_popFront (h : Holds lists m σ) (hσ : σ i = e :: B) : ∃ m',
    listPopFront m (lists i) = some (e, m') ∧ Holds lists m' (Function.update σ i B) := by
  obtain ⟨m', y, hcall, -, hholds⟩ := holds_remove (F := []) h hσ
  have hring : Ring m ([] ++ (lists i).head :: e :: (B ++ [(lists i).tail])) := by
    have hring := h.ring i
    rwa [nodes, hσ] at hring
  have hne : e ≠ (lists i).tail := by
    rintro rfl
    exact h.tail_not_mem (hσ ▸ List.mem_cons_self)
  refine ⟨m', ?_, hholds⟩
  have hempty : listEmpty m (lists i) = some false := by
    simp [listEmpty, listBegin, hring.next_eq, listEnd, hne]
  simp only [listPopFront, listFront, hempty, Bool.not_false, assert_true, hring.next_eq, hcall,
    Option.bind_eq_bind, Option.bind_some, Option.pure_def]

theorem holds_popBack (h : Holds lists m σ) (hσ : σ i = F ++ [e]) : ∃ m',
    listPopBack m (lists i) = some (e, m') ∧ Holds lists m' (Function.update σ i F) := by
  obtain ⟨m', y, hcall, -, hholds⟩ := holds_remove h hσ
  have hring : Ring m (((lists i).head :: F) ++ e :: (lists i).tail :: []) := by
    have hring := h.ring i
    rw [nodes, hσ] at hring
    simpa using hring
  obtain ⟨first, back, hfirst⟩ : ∃ first back, F ++ [e] = first :: back :=
    List.exists_cons_of_ne_nil (by simp)
  have hne : first ≠ (lists i).tail := by
    rintro rfl
    exact h.tail_not_mem (hσ.trans hfirst ▸ List.mem_cons_self)
  have hbegin : next m (lists i).head = some (some first) := by
    have hring' : Ring m ([] ++ (lists i).head :: first :: (back ++ [(lists i).tail])) := by
      have hring := h.ring i
      rwa [nodes, hσ, hfirst] at hring
    exact hring'.next_eq
  rw [List.append_nil] at hholds
  refine ⟨m', ?_, hholds⟩
  have hempty : listEmpty m (lists i) = some false := by
    simp [listEmpty, listBegin, hbegin, listEnd, hne]
  simp only [listPopBack, listBack, hempty, Bool.not_false, assert_true, hring.prev_eq, hcall,
    Option.bind_eq_bind, Option.bind_some, Option.pure_def]

/-! ### Splicing and reversing -/

/-- Taking a range out of a list. -/
theorem holds_cut {src : ι} {x last : ℕ} {mid : List ℕ} (h : Holds lists m σ)
    (hnodes : nodes (lists src) (σ src) = F ++ x :: (mid ++ last :: B))
    (hrest : nodes (lists src) elems = F ++ x :: last :: B) (hsub : elems ⊆ σ src) :
    Holds lists (relink m x last) (Function.update σ src elems) ∧
      ∀ a ∈ mid, InNoList lists (Function.update σ src elems) a := by
  have hring := h.ring src
  have hnodup := h.nodup src
  rw [hnodes] at hring hnodup
  have hx : (m x).isSome := hring.allocated (by simp)
  have hlast : (m last).isSome := hring.allocated (by simp)
  have hcut := (hring.cut hnodup (relink_relinked hx hlast)).1
  have hnodup' : (F ++ x :: last :: B).Nodup := by grind
  refine ⟨h.update (hrest ▸ hcut) (hrest ▸ hnodup') (fun a ha ↦ Or.inl (hsub ha))
    (edits_relink ..) fun a ha ↦ Or.inl ?_, fun a ha j ↦ ?_⟩
  · rw [hnodes]
    simp only [List.mem_cons, List.not_mem_nil, or_false] at ha
    rcases ha with rfl | rfl <;> simp
  · by_cases hj : j = src
    · subst hj
      rw [Function.update_self, hrest]
      grind
    · rw [Function.update_of_ne hj]
      refine h.disjoint src j (Ne.symm hj) ?_
      rw [hnodes]
      simp [ha]

theorem outside_subset (seq : List ℕ) (first last : ℕ) : outside seq first last ⊆ seq := by
  refine List.append_subset.mpr ⟨List.takeWhile_subset _, fun a ha ↦ ?_⟩
  exact List.dropWhile_subset _ (List.dropWhile_subset _ ha)

theorem nodup_paste {x y : ℕ} {mid : List ℕ} (h : (F ++ x :: y :: B).Nodup) (hmid : mid.Nodup)
    (happart : ∀ a ∈ mid, a ∉ F ++ x :: y :: B) : (F ++ x :: (mid ++ y :: B)).Nodup := by
  have hperm : (F ++ x :: (mid ++ y :: B)).Perm (mid ++ (F ++ x :: y :: B)) := by
    rw [List.append_cons, List.append_cons F x (y :: B)]
    exact List.perm_append_comm_assoc ..
  refine hperm.nodup_iff.mpr (List.nodup_append.mpr ⟨hmid, h, fun a ha b hb hab ↦ ?_⟩)
  subst hab
  exact happart a ha hb

/-- `list_splice` moves a range. -/
theorem holds_splice {src dst : ι} {first last : ℕ} (h : Holds lists m σ)
    (hvalid : (Call.splice src dst before first last).Valid lists m σ) : ∃ m',
      listSplice m before first last = some m' ∧
        Holds lists m' ((Call.splice src dst before first last).apply σ) := by
  obtain ⟨hrange, hout, hbefore⟩ := hvalid
  obtain ⟨front, B, hcells, hrest, hfirst⟩ := range_of_mem hrange h.tail_not_mem
  obtain ⟨F₀, x₀, B₀, hnodes₀, -⟩ := h.split hbefore
  have hbehind : prev m before = some (some x₀) := by
    have hring := h.ring dst
    rw [hnodes₀] at hring
    exact hring.prev_eq
  simp only [Call.apply]
  generalize range (σ src) first last = mid at hcells hrest hfirst hout ⊢
  generalize houtside : outside (σ src) first last = elems at hrest ⊢
  cases hmid : mid with
  | nil =>
    subst hmid
    obtain rfl : last = first := Option.some.inj hfirst
    obtain rfl : elems = σ src := List.append_cancel_right (hrest.trans hcells.symm)
    rw [insertBefore_nil, Function.update_eq_self, Function.update_eq_self]
    exact ⟨m, listSplice_self hbehind last, h⟩
  | cons f rest =>
    obtain ⟨z, hz⟩ : ∃ z, mid.getLast? = some z :=
      ⟨_, List.getLast?_eq_some_getLast (hmid ▸ List.cons_ne_nil f rest)⟩
    have hf : mid.head? = some first := by
      rw [hmid] at hfirst ⊢
      exact hfirst
    rw [← hmid]
    obtain ⟨F, x, hx⟩ := exists_concat (lists src).head front
    have hnodes : nodes (lists src) (σ src) = F ++ x :: (mid ++ last :: B) := by
      rw [nodes, hcells, ← List.cons_append, hx, List.append_assoc, List.singleton_append]
    have hnodes' : nodes (lists src) elems = F ++ x :: last :: B := by
      rw [nodes, hrest, ← List.cons_append, hx, List.append_assoc, List.singleton_append]
    have hring := h.ring src
    have hnodup := h.nodup src
    rw [hnodes] at hring hnodup
    obtain ⟨hcut, hloose⟩ := holds_cut h hnodes hnodes' (houtside ▸ outside_subset ..)
    generalize hτ : Function.update σ src elems = τ at hcut hloose ⊢
    have hbefore' : before ∈ τ dst ++ [(lists dst).tail] := by
      subst hτ
      by_cases hdst : dst = src
      · subst hdst
        rw [Function.update_self, hrest]
        rw [hcells] at hbefore
        grind
      · rwa [Function.update_of_ne hdst]
    obtain ⟨F', x', B', hdst, hinsert⟩ := hcut.split hbefore'
    have hring' := hcut.ring dst
    have hnodup' : (F' ++ x' :: (mid ++ before :: B')).Nodup := by
      have hnodupDst := hcut.nodup dst
      rw [hdst] at hnodupDst
      have hmidNodup : mid.Nodup := by grind
      exact nodup_paste hnodupDst hmidNodup fun a ha ↦ hdst ▸ hloose a ha dst
    rw [hdst] at hring'
    obtain ⟨m', hcall, hpasted, hedits⟩ :=
      listSplice_ring hring hnodup hf hz hring' hnodup' ⟨x₀, hbehind⟩
    rw [← hinsert mid] at hpasted hnodup'
    refine ⟨m', hcall, hcut.update hpasted hnodup' (fun a ha ↦ ?_) hedits fun a ha ↦ ?_⟩
    · exact (mem_insertBefore.mp ha).symm.imp_right (hloose a)
    · rw [hdst]
      simp only [List.mem_cons, List.not_mem_nil, or_false] at ha
      rcases ha with rfl | rfl | rfl | rfl
      · exact Or.inl (by simp)
      · exact Or.inr (hloose _ (List.mem_of_mem_head? hf))
      · exact Or.inr (hloose _ (List.mem_of_mem_getLast? hz))
      · exact Or.inl (by simp)

/-- `list_reverse` reverses. -/
theorem holds_reverse (h : Holds lists m σ) (i : ι) : ∃ m',
    Returns (fun fuel ↦ listReverse fuel m (lists i)) m' ∧
      Holds lists m' (Function.update σ i (σ i).reverse) := by
  obtain ⟨m', hreturns, hring, hedits⟩ := listReverse_ring (h.ring i) (h.nodup i)
  have hperm : (nodes (lists i) (σ i).reverse).Perm (nodes (lists i) (σ i)) :=
    ((List.reverse_perm _).append_right _).cons _
  exact ⟨m', hreturns, h.update hring (hperm.nodup_iff.mpr (h.nodup i))
    (fun a ha ↦ Or.inl (List.mem_reverse.mp ha)) hedits fun a ha ↦ Or.inl ha⟩

/-! ### Runs -/

theorem executes_of_exec {call : Call ι} (m' : Elems)
    (hexec : ∀ fuel, call.exec lists m fuel = some (call.result lists σ, m'))
    (h : Holds lists m' (call.apply σ)) : Executes lists m σ call :=
  ⟨m', ⟨0, fun fuel _ ↦ hexec fuel⟩, h⟩

/-- Every valid call does what it says. -/
theorem Holds.executes (h : Holds lists m σ) {call : Call ι} (hvalid : call.Valid lists m σ) :
    Executes lists m σ call := by
  cases call with
  | pushFront i elem =>
    obtain ⟨m', hcall, hholds⟩ := holds_pushFront (i := i) h hvalid.1 hvalid.2
    exact executes_of_exec m' (fun _ ↦ by rw [Call.exec, hcall]; rfl) hholds
  | pushBack i elem =>
    obtain ⟨m', hcall, hholds⟩ := holds_pushBack (i := i) h hvalid.1 hvalid.2
    exact executes_of_exec m' (fun _ ↦ by rw [Call.exec, hcall]; rfl) hholds
  | insert i before elem =>
    obtain ⟨m', hcall, hholds⟩ := holds_insert h hvalid.2.2 hvalid.1 hvalid.2.1
    exact executes_of_exec m' (fun _ ↦ by rw [Call.exec, hcall]; rfl) hholds
  | remove i elem =>
    obtain ⟨F, B, hσ, hF⟩ := List.eq_append_cons_of_mem hvalid
    obtain ⟨m', y, hcall, hy, hholds⟩ := holds_remove h hσ
    have hcells : σ i ++ [(lists i).tail] = F ++ elem :: (B ++ [(lists i).tail]) := by
      rw [hσ, List.append_assoc, List.cons_append]
    have hall : ∀ a ∈ F, decide (a ≠ elem) = true := fun a ha ↦
      decide_eq_true (ne_of_mem_of_not_mem ha hF)
    have hresult : (Call.remove i elem).result lists σ = some y := by
      rw [Call.result, hcells, List.dropWhile_append_of_pos hall, ← hy]
      simp
    have happly : (Call.remove i elem).apply σ = Function.update σ i (F ++ B) := by
      rw [Call.apply, hσ, List.erase_append_right _ hF, List.erase_cons_head]
    exact executes_of_exec m' (fun _ ↦ by rw [Call.exec, hcall, hresult]) (happly ▸ hholds)
  | popFront i =>
    obtain ⟨e, B, hσ⟩ := List.exists_cons_of_ne_nil hvalid
    obtain ⟨m', hcall, hholds⟩ := holds_popFront h hσ
    refine executes_of_exec m' (fun _ ↦ ?_) ?_
    · rw [Call.exec, hcall, Call.result, hσ]
      rfl
    · rwa [Call.apply, hσ, List.tail_cons]
  | popBack i =>
    obtain ⟨a, l, hl⟩ := List.exists_cons_of_ne_nil hvalid
    obtain ⟨F, e, hσ⟩ := exists_concat a l
    rw [← hl] at hσ
    obtain ⟨m', hcall, hholds⟩ := holds_popBack h hσ
    refine executes_of_exec m' (fun _ ↦ ?_) ?_
    · rw [Call.exec, hcall, Call.result, hσ, List.getLast?_concat]
      rfl
    · rwa [Call.apply, hσ, List.dropLast_concat]
  | splice src dst before first last =>
    obtain ⟨m', hcall, hholds⟩ := holds_splice h hvalid
    exact executes_of_exec m' (fun _ ↦ by rw [Call.exec, hcall]; rfl) hholds
  | reverse i =>
    obtain ⟨m', ⟨bound, hbound⟩, hholds⟩ := holds_reverse h i
    refine ⟨m', ⟨bound, fun fuel hfuel ↦ ?_⟩, hholds⟩
    have hcall := hbound fuel hfuel
    simp only [Call.exec, Call.result, hcall, Option.map_some]

omit [DecidableEq ι] in
theorem Holds.wellFormed (h : Holds lists m σ) : WellFormed lists m σ where
  isList i := by
    have hlinks := (h.ring i).links
    refine ⟨List.IsChain.imp (fun a b hlink ↦ next_of_after hlink.1) hlinks, ?_,
      (h.ring i).first _ rfl, (h.ring i).last _ ?_⟩
    · have hback := List.IsChain.imp (fun a b hlink ↦ prev_of_before hlink.1) hlinks.reverse
      simpa [nodes] using hback
    · rw [nodes, ← List.cons_append, List.getLast?_concat]
  nodup i := List.Nodup.of_append_left (h.nodup i).tail
  disjoint i j hij a hi hj := by
    have hmem : ∀ k, a ∈ σ k → a ∈ nodes (lists k) (σ k) := fun k hk ↦
      List.mem_cons_of_mem _ (List.mem_append_left _ hk)
    exact h.disjoint i j hij (hmem i hi) (hmem j hj)

omit [DecidableEq ι] in
/-- Initialised lists are empty. -/
theorem exists_initLists (hheaders : Headers lists m) (order done : List ι)
    (hdone : ∀ i ∈ done, Ring m (nodes (lists i) [])) : ∃ m', initLists lists m order = some m' ∧
      ∀ i ∈ done ++ order, Ring m' (nodes (lists i) []) := by
  induction order generalizing m done with
  | nil => exact ⟨m, rfl, by rwa [List.append_nil]⟩
  | cons i order ih =>
    obtain ⟨m₁, hinit, hring, hedits⟩ :=
      listInit_ring (hheaders.allocated i).1 (hheaders.allocated i).2 (hheaders.distinct i)
    have hheaders₁ : Headers lists m₁ := by
      refine ⟨fun j ↦ ?_, hheaders.distinct, hheaders.disjoint⟩
      rw [hedits.allocated, hedits.allocated]
      exact hheaders.allocated j
    have hdone₁ : ∀ j ∈ done ++ [i], Ring m₁ (nodes (lists j) []) := by
      intro j hj
      by_cases hji : j = i
      · exact hji ▸ hring
      · have hmem : j ∈ done := by
          rcases List.mem_append.mp hj with hj | hj
          · exact hj
          · exact absurd (List.mem_singleton.mp hj) hji
        exact (hdone j hmem).frame fun a ha ↦ hedits.same a fun ha' ↦
          hheaders.disjoint j i hji ha ha'
    obtain ⟨m', hrest, hall⟩ := ih hheaders₁ (done ++ [i]) hdone₁
    refine ⟨m', ?_, ?_⟩
    · rw [initLists, List.foldlM_cons, hinit]
      exact hrest
    · rwa [List.append_assoc, List.singleton_append] at hall

omit [DecidableEq ι] in
theorem holds_initLists {order : List ι} (hheaders : Headers lists m) (hall : ∀ i, i ∈ order)
    (hinit : initLists lists m order = some m') : Holds lists m' fun _ ↦ [] := by
  obtain ⟨m₁, hinit₁, hring⟩ :=
    exists_initLists hheaders order [] fun i hi ↦ absurd hi List.not_mem_nil
  obtain rfl : m' = m₁ := Option.some.inj (hinit.symm.trans hinit₁)
  refine ⟨fun i ↦ hring i (hall i), fun i ↦ ?_, hheaders.disjoint⟩
  simpa [nodes] using hheaders.distinct i

/-- A call keeps what the lists hold. -/
theorem holds_step {s s' : Elems × (ι → List ℕ)} {call : Call ι} (h : Holds lists s.1 s.2)
    (hstep : Step lists s call s') : Holds lists s'.1 s'.2 := by
  obtain ⟨hvalid, happly, result, hreturns⟩ := hstep
  obtain ⟨m', hreturns', hholds⟩ := h.executes hvalid
  have hcells : s'.1 = m' := congrArg Prod.snd (hreturns.unique hreturns')
  rwa [hcells, happly]

/-- After a run the lists are well formed and hold what the calls have made of the empty sequences,
and every valid call does what it says. -/
theorem run_holds_sequences {order : List ι} {m₀ m₁ : Elems} {calls : List (Call ι)}
    (hheaders : Headers lists m₀) (hall : ∀ i, i ∈ order)
    (hinit : initLists lists m₀ order = some m₁)
    (hrun : Run (Step lists) (m₁, fun _ ↦ []) calls (m, σ)) :
    WellFormed lists m σ ∧ ∀ call : Call ι, call.Valid lists m σ → Conforms lists m σ call := by
  have hkeep : ∀ (s : Elems × (ι → List ℕ)) (call : Call ι) (s' : Elems × (ι → List ℕ)),
      Holds lists s.1 s.2 → Step lists s call s' → Holds lists s'.1 s'.2 :=
    fun _ _ _ ↦ holds_step
  have hholds := Run.invariant hkeep hrun (holds_initLists hheaders hall hinit)
  refine ⟨hholds.wellFormed, fun call hvalid ↦ ?_⟩
  obtain ⟨m', hreturns, hholds'⟩ := hholds.executes hvalid
  exact ⟨m', hreturns, hholds'.wellFormed⟩

/-- Three cells: the head and the tail of a list and an element. -/
def threeCells : Elems := fun a ↦ if a < 3 then some ⟨none, none⟩ else none

/-- A run that puts one element into a list. -/
theorem run_holds_sequences_pushBack : ∃ m, WellFormed (fun _ : Unit ↦ ⟨0, 1⟩) m
    ((Call.pushBack () 2).apply fun _ ↦ []) := by
  have hheaders : Headers (fun _ : Unit ↦ ⟨0, 1⟩) threeCells :=
    ⟨fun _ ↦ ⟨rfl, rfl⟩, fun _ ↦ by decide, fun i j hij ↦ absurd (Subsingleton.elim i j) hij⟩
  have hall : ∀ i : Unit, i ∈ [()] := fun _ ↦ List.mem_cons_self
  obtain ⟨m₁, hinit, -⟩ := exists_initLists hheaders [()] [] fun i hi ↦ absurd hi List.not_mem_nil
  have hholds := holds_initLists hheaders hall hinit
  have hvalid : (Call.pushBack () 2).Valid (fun _ : Unit ↦ ⟨0, 1⟩) m₁ fun _ ↦ [] := by
    refine ⟨?_, fun _ ↦ show 2 ∉ [0, 1] by decide⟩
    obtain rfl := Option.some.inj hinit
    rfl
  obtain ⟨m, hreturns, -⟩ := hholds.executes hvalid
  exact ⟨m, (run_holds_sequences hheaders hall hinit (Run.single ⟨hvalid, rfl, _, hreturns⟩)).1⟩

end Jungle.KernelList
