import Jungle.Lib.Run
import Jungle.RedBlack.Lookup
import Jungle.RedBlack.WellFormed

/-!
# Runs of the red-black tree

A run starts with `new_rbtree` and continues with calls of `rbtree_insert` and `rbtree_erase`.
`guarded_run_refines_multiset` says that a run keeps the nodes it inserted and did not erase, in the order of
their keys, as long as no `rbtree_delete_fixup` meets a red sibling on the right.
-/

set_option autoImplicit false
set_option relaxedAutoImplicit false

namespace Jungle.RedBlack

open BinaryTree Jungle.Lib

/-- The tree, and the nodes returned by `rbtree_insert` and not yet erased with their keys. -/
structure State where
  tree : RbTree
  live : List (ℕ × ℤ)

/-- The calls of a run; `new` is what `malloc` returns. -/
inductive Call
  | insert (key : ℤ) (new : ℕ)
  | erase (z : ℕ)

/-- What a call returns, and the tree after it. -/
def Call.exec (t : RbTree) (fuel : ℕ) : Call → Option (ℕ × RbTree)
  | .insert key new => t.rbtreeInsert fuel key new
  | .erase z => (t.rbtreeErase fuel z).map fun t ↦ (0, t)

/-- `malloc` returns an address that is not in use, and a node that is erased is in the tree. -/
def Call.Valid (s : State) : Call → Prop
  | .insert _ new => s.tree.nodes new = none
  | .erase z => z ∈ s.live.map Prod.fst

/-- The nodes after a call. -/
def Call.liveAfter (result : ℕ) (live : List (ℕ × ℤ)) : Call → List (ℕ × ℤ)
  | .insert key _ => (result, key) :: live
  | .erase z => live.filter fun e ↦ e.1 ≠ z

/-- One call that returns. -/
def Step (s : State) (call : Call) (s' : State) : Prop :=
  call.Valid s ∧ ∃ result, Returns (call.exec s.tree) (result, s'.tree) ∧
    s'.live = call.liveAfter result s.live

/-- An erasure meets no red sibling on the right. -/
def Call.Guarded (s : State) : Call → Prop
  | .insert _ _ => True
  | .erase z => ∃ tree, Holds s.tree.nodes s.tree.nil tree s.tree ∧ ¬eraseMeetsRedRight z tree

/-- One call that returns and is guarded. -/
def GuardedStep (s : State) (call : Call) (s' : State) : Prop :=
  Step s call s' ∧ call.Guarded s

/-- The tree has exactly the live nodes in the order of their keys, the lookups find what they look
for, and every next call, if allowed, returns. -/
structure Refines (allowed : Call → Prop) (s : State) : Prop where
  tree : ∃ tree, Holds s.tree.nodes s.tree.nil tree s.tree ∧ Sorted tree ∧
    (entries tree).Perm s.live
  find : ∀ key, ∃ a, Returns (fun fuel ↦ s.tree.rbtreeFind fuel key) a ∧
    Finds s.tree.nil s.live key a
  min : ∃ a, Returns (fun fuel ↦ s.tree.rbtreeMin fuel) a ∧ FindsEnd s.tree.nil s.live (· ≤ ·) a
  max : ∃ a, Returns (fun fuel ↦ s.tree.rbtreeMax fuel) a ∧ FindsEnd s.tree.nil s.live (· ≥ ·) a
  next : ∀ call : Call, call.Valid s → allowed call → ∃ s', Step s call s'

/-- A balanced tree with the live nodes. -/
structure IsTree (s : State) (tree : Tree) : Prop where
  holds : Holds s.tree.nodes s.tree.nil tree s.tree
  sentinel : ∃ p, Sentinel s.tree.nodes s.tree.nil p
  balanced : ∃ h, Balanced tree h
  root : rootColor tree = .black
  sorted : Sorted tree
  live : (entries tree).Perm s.live

variable {s s' : State} {tree : Tree}

theorem IsTree.wellFormed (h : IsTree s tree) : WellFormed s.tree tree :=
  ⟨h.holds, h.sentinel, h.balanced, h.root, h.sorted⟩

theorem WellFormed.isTree {t : RbTree} {live : List (ℕ × ℤ)} (h : WellFormed t tree)
    (hlive : (entries tree).Perm live) : IsTree ⟨t, live⟩ tree :=
  ⟨h.holds, h.sentinel, h.balanced, h.root, h.sorted, hlive⟩

/-- An insertion keeps the tree of the live nodes. -/
theorem insert_isTree (h : IsTree s tree) (key : ℤ) {new : ℕ} (hnew : s.tree.nodes new = none) :
    ∃ s' tree', Step s (.insert key new) s' ∧ IsTree s' tree' := by
  obtain ⟨t', tree', hreturns, hwell, left, right, hold, hinserted⟩ :=
    h.wellFormed.insert key hnew
  refine ⟨⟨t', (new, key) :: s.live⟩, tree', ⟨hnew, new, hreturns, rfl⟩, hwell.isTree ?_⟩
  have hlive := h.live
  rw [hold] at hlive
  rw [hinserted]
  exact List.perm_middle.trans (hlive.cons _)

/-- An erasure that meets no red sibling on the right keeps the tree of the live nodes. -/
theorem erase_isTree (h : IsTree s tree) {z : ℕ} (hz : z ∈ s.live.map Prod.fst)
    (hmeets : ¬eraseMeetsRedRight z tree) : ∃ s' tree', Step s (.erase z) s' ∧ IsTree s' tree' := by
  have hmem : z ∈ addresses tree := by
    rw [addresses_eq]
    exact (h.live.map Prod.fst).mem_iff.mpr hz
  have hfails : eraseFails z tree = false :=
    Bool.eq_false_iff.mpr fun hfails ↦ hmeets (eraseMeetsRedRight_of_eraseFails hfails)
  obtain ⟨t', hreturns, hfine, -⟩ := h.wellFormed.erase hmem
  obtain ⟨tree', hwell, left, k, right, hold, herased⟩ := hfine hfails
  have hresult : Returns ((Call.erase z).exec s.tree) (0, t') := by
    obtain ⟨bound, hbound⟩ := hreturns
    exact ⟨bound, fun fuel hfuel ↦ by simp only [Call.exec, hbound fuel hfuel, Option.map_some]⟩
  refine ⟨⟨t', s.live.filter fun e ↦ e.1 ≠ z⟩, tree', ⟨hz, 0, hresult, rfl⟩, hwell.isTree ?_⟩
  have hnodup := h.holds.nodup
  rw [addresses_eq, hold, List.map_append, List.map_cons, List.perm_middle.nodup_iff,
    List.nodup_cons, ← List.map_append] at hnodup
  have hkeep : (entries tree).filter (fun e ↦ e.1 ≠ z) = left ++ right := by
    have hall : ∀ e ∈ left ++ right, e.1 ≠ z := fun e he ↦
      ne_of_mem_of_not_mem (List.mem_map_of_mem he) hnodup.1
    rw [hold, List.filter_append, List.filter_cons_of_neg (by simp), ← List.filter_append]
    exact List.filter_eq_self.mpr fun e he ↦ decide_eq_true (hall e he)
  rw [herased, ← hkeep]
  exact h.live.filter _

/-- A guarded call keeps the tree of the live nodes. -/
theorem call_isTree (h : IsTree s tree) {call : Call} (hvalid : call.Valid s)
    (hguarded : call.Guarded s) : ∃ s' tree', Step s call s' ∧ IsTree s' tree' := by
  cases call with
  | insert key new => exact insert_isTree h key hvalid
  | erase z =>
    obtain ⟨tree', hholds, hmeets⟩ := hguarded
    obtain rfl := h.holds.tree_unique hholds
    exact erase_isTree h hvalid hmeets

/-! ### Runs -/

/-- What a tree of the live nodes gives. -/
theorem IsTree.refines (h : IsTree s tree) : Refines (Call.Guarded s) s where
  tree := ⟨tree, h.holds, h.sorted, h.live⟩
  find key := by
    obtain ⟨a, hreturns, hfinds⟩ := rbtreeFind_returns h.holds h.sorted key
    exact ⟨a, hreturns, hfinds.perm h.live⟩
  min := by
    obtain ⟨a, hreturns, hfinds⟩ := rbtreeMin_returns h.holds h.sorted
    exact ⟨a, hreturns, hfinds.perm h.live⟩
  max := by
    obtain ⟨a, hreturns, hfinds⟩ := rbtreeMax_returns h.holds h.sorted
    exact ⟨a, hreturns, hfinds.perm h.live⟩
  next call hvalid hguarded := by
    obtain ⟨s', -, hstep, -⟩ := call_isTree h hvalid hguarded
    exact ⟨s', hstep⟩

/-- A call has one result. -/
theorem Step.unique {call : Call} {s₁ s₂ : State} (h₁ : Step s call s₁) (h₂ : Step s call s₂) :
    s₁ = s₂ := by
  obtain ⟨tree₁, live₁⟩ := s₁
  obtain ⟨tree₂, live₂⟩ := s₂
  obtain ⟨-, result₁, hreturns₁, rfl⟩ := h₁
  obtain ⟨-, result₂, hreturns₂, rfl⟩ := h₂
  obtain ⟨rfl, rfl⟩ := Prod.mk.inj (hreturns₁.unique hreturns₂)
  rfl

/-- The empty tree. -/
theorem isTree_empty (nodes : Store Node) (nil : ℕ) : IsTree ⟨newRbtree nodes nil, []⟩ .nil where
  holds := ⟨rfl, rfl, trivial, List.nodup_nil, List.not_mem_nil, fun _ _ ↦ rfl⟩
  sentinel := ⟨nil, 0, Store.put_self ..⟩
  balanced := ⟨0, rfl⟩
  root := rfl
  sorted := List.Pairwise.nil
  live := List.Perm.nil

/-! ### Running calls -/

instance (s : State) : (call : Call) → Decidable (call.Valid s)
  | .insert _ new => inferInstanceAs (Decidable (s.tree.nodes new = none))
  | .erase z => inferInstanceAs (Decidable (z ∈ s.live.map Prod.fst))

/-- Runs valid calls one after the other. -/
def play (fuel : ℕ) : State → List Call → Option State
  | s, [] => some s
  | s, call :: calls =>
    if call.Valid s then
      (call.exec s.tree fuel).bind fun r ↦ play fuel ⟨r.2, call.liveAfter r.1 s.live⟩ calls
    else none

/-- A larger bound does not change what a call returns. -/
theorem settles_exec (call : Call) (t : RbTree) : Settles (call.exec t) := by
  have hfixup : ∀ (t : RbTree) (z : ℕ), Settles fun fuel ↦ RbTree.rbtreeFixup fuel t z :=
    fun t z ↦ (settles_whileLoop (t, z)).bind fun t ↦ settles_const (t.setColor t.root .black)
  have hdelete : ∀ (t : RbTree) (x : ℕ), Settles fun fuel ↦ t.rbtreeDeleteFixup fuel x :=
    fun t x ↦ (settles_whileLoop (t, x)).bind fun _ ↦ settles_const _
  cases call with
  | insert key new =>
    refine (settles_whileLoop _).bind fun y ↦ (settles_const _).bind fun t ↦
      (settles_const _).bind fun t ↦ (hfixup t new).bind fun t ↦ settles_const _
  | erase z =>
    have hunlink : Settles fun fuel ↦ t.unlinkNode fuel z := by
      refine (settles_const _).bind fun left ↦ (settles_const _).ite ((settles_const _).bind
        fun right ↦ (settles_const _).ite ?_)
      exact (settles_const _).bind fun _ ↦ (settles_whileLoop _).bind fun _ ↦ settles_const _
    have herase : Settles fun fuel ↦ t.rbtreeErase fuel z := by
      refine hunlink.bind ?_
      rintro ⟨t, x, c⟩
      cases c with
      | red => exact settles_const (t.freeNode z)
      | black => exact (hdelete t x).bind fun t ↦ settles_const (t.freeNode z)
    intro fuel fuel' result hle hcall
    obtain ⟨t', ht', hresult⟩ := Option.map_eq_some_iff.mp hcall
    exact Option.map_eq_some_iff.mpr ⟨t', herase fuel fuel' t' hle ht', hresult⟩

/-- Calls that can be run are a run. -/
theorem run_of_play {fuel : ℕ} {calls : List Call} (h : play fuel s calls = some s') :
    Run Step s calls s' := by
  induction calls generalizing s with
  | nil =>
    obtain rfl := Option.some.inj h
    exact Run.nil s
  | cons call calls ih =>
    by_cases hvalid : call.Valid s
    · rw [play, if_pos hvalid] at h
      obtain ⟨⟨result, t⟩, hexec, hrest⟩ := Option.bind_eq_some_iff.mp h
      exact Run.cons ⟨hvalid, result, (settles_exec call s.tree).returns hexec, rfl⟩ (ih hrest)
    · rw [play, if_neg hvalid] at h
      exact absurd h (Option.some_ne_none s').symm

/-! ### The runs from the empty tree -/

/-- Every run from the empty tree whose erasures meet no red sibling on the right refines the multiset
of the inserted and not erased nodes. -/
theorem guarded_run_refines_multiset {nodes : Store Node} {nil : ℕ} {calls : List Call}
    (hrun : Run GuardedStep ⟨newRbtree nodes nil, []⟩ calls s) : Refines (Call.Guarded s) s := by
  have hkeep : ∀ (s : State) (call : Call) (s' : State), (∃ tree, IsTree s tree) →
      GuardedStep s call s' → ∃ tree, IsTree s' tree := by
    rintro s call s' ⟨tree, h⟩ ⟨hstep, hguarded⟩
    obtain ⟨s₁, tree', hstep₁, h'⟩ := call_isTree h hstep.1 hguarded
    obtain rfl := hstep.unique hstep₁
    exact ⟨tree', h'⟩
  obtain ⟨tree, h⟩ := hrun.invariant hkeep ⟨_, isTree_empty nodes nil⟩
  exact h.refines

/-- The run that inserts 5 and erases it. -/
theorem guarded_run_refines_multiset_erase : ∃ s, play 5 ⟨newRbtree Store.empty 0, []⟩
    [.insert 5 1, .erase 1] = some s ∧ Refines (Call.Guarded s) s := by
  have hcells : (play 5 ⟨newRbtree Store.empty 0, []⟩ [.insert 5 1]).map (fun s ↦
      (s.tree.root, s.tree.nil, s.tree.nodes 1)) = some (1, 0, some ⟨.black, 5, 0, 0, 0⟩) := by
    decide +kernel
  have hplay : (play 5 ⟨newRbtree Store.empty 0, []⟩ [.insert 5 1, .erase 1]).isSome := by
    decide +kernel
  obtain ⟨s₁, hplay₁, hs₁⟩ := Option.map_eq_some_iff.mp hcells
  obtain ⟨s₂, hplay₂⟩ := Option.isSome_iff_exists.mp hplay
  obtain ⟨hroot, hnil, hcell⟩ : s₁.tree.root = 1 ∧ s₁.tree.nil = 0 ∧
      s₁.tree.nodes 1 = some ⟨.black, 5, 0, 0, 0⟩ := by
    simpa only [Prod.mk.injEq] using hs₁
  have hguarded : (Call.erase 1).Guarded s₁ := by
    refine ⟨.node (.black, 1, 5) .nil .nil, ⟨rfl, hroot, ?_, by decide, ?_, fun _ _ ↦ rfl⟩, by decide⟩
    · rw [hnil]
      exact ⟨hcell, trivial, trivial⟩
    · rw [hnil]
      decide
  cases run_of_play hplay₂ with
  | cons first rest =>
    cases rest with
    | cons second rest =>
      cases rest with
      | nil =>
        cases run_of_play hplay₁ with
        | cons first' rest' =>
          cases rest' with
          | nil =>
            obtain rfl := first.unique first'
            exact ⟨s₂, hplay₂, guarded_run_refines_multiset
              (Run.cons ⟨first, trivial⟩ (Run.single ⟨second, hguarded⟩))⟩

/-- The run after which the sentinel is red and its parent is a freed node. -/
def redSentinel : List Call :=
  [.insert 11 1, .insert 3 2, .insert 5 3, .insert 12 4, .insert 12 5, .insert 5 6, .insert 10 7,
    .erase 2, .erase 4, .erase 3, .erase 5]

/-- Not every run refines the multiset: after `redSentinel` the next insertion reads a freed node. -/
theorem not_run_refines_multiset : ¬∀ (nodes : Store Node) (nil : ℕ) (calls : List Call) (s : State),
    Run Step ⟨newRbtree nodes nil, []⟩ calls s → Refines (fun _ ↦ True) s := by
  intro h
  have hcell : (play 10 ⟨newRbtree Store.empty 0, []⟩ redSentinel).map (fun s ↦ s.tree.nodes 8) =
      some none := by decide +kernel
  have hfault : ∀ fuel, (play 10 ⟨newRbtree Store.empty 0, []⟩ redSentinel).bind
    (fun s ↦ (Call.insert 0 8).exec s.tree (fuel + 5)) = none := fun _ ↦ rfl
  obtain ⟨s, hplay, hvalid⟩ := Option.map_eq_some_iff.mp hcell
  obtain ⟨s', -, result, ⟨bound, hbound⟩, -⟩ :=
    (h _ _ _ _ (run_of_play hplay)).next (.insert 0 8) hvalid trivial
  have hnone := hfault bound
  rw [hplay, Option.bind_some] at hnone
  have hsome := hbound (bound + 5) (by omega)
  exact absurd (hnone.symm.trans hsome) (Option.some_ne_none _).symm

end Jungle.RedBlack
