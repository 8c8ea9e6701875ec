import Jungle.SearchTrees.Basic
import Jungle.SearchTrees.Functional

/-!
# The pointer functions on trees

`Rep nodes x t` says that the pointer `x` leads to the tree `t` in the store. It fixes the cells of
the tree (`Rep.cells_eq`) and depends on them only (`Rep.frame`). With distinct addresses and a
bound above the number of nodes, `insertBSTNode` turns the tree into its `insertValue`
(`insertBSTNode_spec`) and `removeNodeFromTree` into its `removeValue`, freeing what drops out
(`removeNodeFromTree_spec`).
-/

set_option autoImplicit false
set_option relaxedAutoImplicit false

namespace Jungle.SearchTrees

open BinaryTree Jungle.Lib

/-- The pointer leads to the tree. -/
def Rep (nodes : Store BSTNode) : Option ℕ → Entries → Prop
  | x, nil => x = none
  | x, node (a, v) left right =>
    x = some a ∧ ∃ l r, nodes a = some ⟨v, l, r⟩ ∧ Rep nodes l left ∧ Rep nodes r right

variable {nodes nodes' : Store BSTNode} {x x' : Option ℕ} {t : Entries}

/-- A representation depends on the cells of the tree only. -/
theorem Rep.frame (h : Rep nodes x t) (hagree : ∀ a ∈ addresses t, nodes' a = nodes a) :
    Rep nodes' x t := by
  induction t generalizing x with
  | nil => exact h
  | node entry left right ihLeft ihRight =>
    obtain ⟨a, v⟩ := entry
    obtain ⟨hx, l, r, hcell, hleft, hright⟩ := h
    rw [addresses_node] at hagree
    refine ⟨hx, l, r, (hagree a (by simp)).trans hcell, ihLeft hleft fun b hb ↦ ?_,
      ihRight hright fun b hb ↦ ?_⟩
    · exact hagree b (List.mem_append_left _ hb)
    · exact hagree b (List.mem_append_right _ (List.mem_cons_of_mem _ hb))

/-- A representation fixes the pointer and the cells of the tree. -/
theorem Rep.cells_eq (h : Rep nodes x t) (h' : Rep nodes' x' t) :
    x' = x ∧ ∀ a ∈ addresses t, nodes' a = nodes a := by
  induction t generalizing x x' with
  | nil => exact ⟨h'.trans h.symm, fun a ha ↦ absurd ha List.not_mem_nil⟩
  | node entry left right ihLeft ihRight =>
    obtain ⟨a, v⟩ := entry
    obtain ⟨hx, l, r, hcell, hleft, hright⟩ := h
    obtain ⟨hx', l', r', hcell', hleft', hright'⟩ := h'
    obtain ⟨rfl, hagreeLeft⟩ := ihLeft hleft hleft'
    obtain ⟨rfl, hagreeRight⟩ := ihRight hright hright'
    refine ⟨hx'.trans hx.symm, fun b hb ↦ ?_⟩
    rw [addresses_node, List.mem_append, List.mem_cons] at hb
    rcases hb with hb | rfl | hb
    · exact hagreeLeft b hb
    · exact hcell'.trans hcell.symm
    · exact hagreeRight b hb

/-- The addresses of a tree hold cells with its items. -/
theorem Rep.allocated (h : Rep nodes x t) {entry : ℕ × ℤ} (hentry : entry ∈ inorder t) :
    ∃ cell, nodes entry.1 = some cell ∧ cell.item = entry.2 := by
  induction t generalizing x with
  | nil => exact absurd hentry List.not_mem_nil
  | node root left right ihLeft ihRight =>
    obtain ⟨a, v⟩ := root
    obtain ⟨-, l, r, hcell, hleft, hright⟩ := h
    rw [inorder_node, List.mem_append, List.mem_cons] at hentry
    rcases hentry with hentry | rfl | hentry
    · exact ihLeft hleft hentry
    · exact ⟨_, hcell, rfl⟩
    · exact ihRight hright hentry

theorem Rep.eq_none_iff (h : Rep nodes x t) : x = none ↔ t = nil := by
  cases t with
  | nil => exact iff_of_true h rfl
  | node entry left right => exact iff_of_false (by rw [h.1]; simp) (by simp)

/-- The addresses of a node and its subtrees are apart. -/
theorem nodup_node {a : ℕ} {v : ℤ} {left right : Entries}
    (h : (addresses (node (a, v) left right)).Nodup) :
    (addresses left).Nodup ∧ (addresses right).Nodup ∧ a ∉ addresses left ∧
      a ∉ addresses right ∧ ∀ b ∈ addresses left, b ∉ addresses right := by
  rw [addresses_node, List.nodup_append, List.nodup_cons] at h
  obtain ⟨hleft, ⟨ha, hright⟩, hdisjoint⟩ := h
  exact ⟨hleft, hright, fun hmem ↦ hdisjoint a hmem a List.mem_cons_self rfl, ha,
    fun b hb hb' ↦ hdisjoint b hb b (List.mem_cons_of_mem _ hb') rfl⟩

/-- Writing the cell of a node between the representations of its subtrees. -/
theorem rep_put {a : ℕ} {v : ℤ} {l r : Option ℕ} {left right : Entries} (hleft : Rep nodes l left)
    (hright : Rep nodes r right) (ha : a ∉ addresses left) (ha' : a ∉ addresses right) :
    Rep (nodes.put a ⟨v, l, r⟩) (some a) (node (a, v) left right) := by
  refine ⟨rfl, l, r, Store.put_self .., hleft.frame fun b hb ↦ ?_, hright.frame fun b hb ↦ ?_⟩
  · exact Store.put_of_ne _ (ne_of_mem_of_not_mem hb ha) _
  · exact Store.put_of_ne _ (ne_of_mem_of_not_mem hb ha') _

/-! ### `insertBSTNode` -/

/-- The tree after an insertion: without memory it stays as it is. -/
def insertOutcome (value : ℤ) (t : Entries) : Option ℕ → Entries
  | none => t
  | some new => insertValue value new t

/-- The three ways an insertion goes at a node. -/
theorem insertOutcome_node_cases (value : ℤ) (a : ℕ) (v : ℤ) (left right : Entries)
    (new : Option ℕ) :
    value < v ∧ insertOutcome value (node (a, v) left right) new =
        node (a, v) (insertOutcome value left new) right ∨
      v < value ∧ insertOutcome value (node (a, v) left right) new =
        node (a, v) left (insertOutcome value right new) ∨
      value = v ∧ insertOutcome value (node (a, v) left right) new = node (a, v) left right := by
  rcases lt_trichotomy value v with hlt | rfl | hgt
  · refine Or.inl ⟨hlt, ?_⟩
    cases new with
    | none => rfl
    | some new => simp only [insertOutcome, insertValue, if_pos hlt]
  · refine Or.inr (Or.inr ⟨rfl, ?_⟩)
    cases new with
    | none => rfl
    | some new => simp only [insertOutcome, insertValue, lt_irrefl, if_false]
  · refine Or.inr (Or.inl ⟨hgt, ?_⟩)
    cases new with
    | none => rfl
    | some new => simp only [insertOutcome, insertValue, if_neg (lt_asymm hgt), if_pos hgt]

/-- An insertion adds no address but the new one. -/
theorem mem_addresses_insertOutcome {value : ℤ} {new : Option ℕ} {b : ℕ}
    (h : b ∈ addresses (insertOutcome value t new)) : b ∈ addresses t ∨ b ∈ new := by
  induction t with
  | nil =>
    cases new with
    | none => exact Or.inl h
    | some new => exact Or.inr (by simpa [insertOutcome, insertValue, eq_comm] using h)
  | node entry left right ihLeft ihRight =>
    obtain ⟨a, v⟩ := entry
    rw [addresses_node, List.mem_append, List.mem_cons]
    rcases insertOutcome_node_cases value a v left right new with
      ⟨-, houtcome⟩ | ⟨-, houtcome⟩ | ⟨-, houtcome⟩ <;>
      rw [houtcome, addresses_node, List.mem_append, List.mem_cons] at h
    · rcases h with h | h | h
      · exact (ihLeft h).imp_left Or.inl
      · exact Or.inl (Or.inr (Or.inl h))
      · exact Or.inl (Or.inr (Or.inr h))
    · rcases h with h | h | h
      · exact Or.inl (Or.inl h)
      · exact Or.inl (Or.inr (Or.inl h))
      · exact (ihRight h).imp_left fun hmem ↦ Or.inr (Or.inr hmem)
    · exact Or.inl h

/-- `insertBSTNode` turns a tree into its `insertOutcome` and leaves all other cells alone. -/
theorem insertBSTNode_spec (value : ℤ) {new : Option ℕ} (hnew : ∀ a ∈ new, a ∉ addresses t)
    (h : Rep nodes x t) (hnodup : (addresses t).Nodup) {fuel : ℕ} (hfuel : t.numNodes < fuel) :
    ∃ x' nodes', insertBSTNode fuel nodes x value new = some (x', nodes') ∧
      Rep nodes' x' (insertOutcome value t new) ∧
      ∀ b, b ∉ addresses (insertOutcome value t new) → nodes' b = nodes b := by
  obtain ⟨fuel, rfl⟩ : ∃ n, fuel = n + 1 := ⟨fuel - 1, by omega⟩
  induction t generalizing nodes x fuel with
  | nil =>
    obtain rfl : x = none := h
    cases new with
    | none => exact ⟨none, nodes, rfl, rfl, fun _ _ ↦ rfl⟩
    | some new =>
      refine ⟨some new, _, rfl, ⟨rfl, none, none, Store.put_self .., rfl, rfl⟩, fun b hb ↦ ?_⟩
      exact Store.put_of_ne _ (by simpa [insertOutcome, insertValue] using hb) _
  | node entry left right ihLeft ihRight =>
    obtain ⟨a, v⟩ := entry
    obtain ⟨hnodupLeft, hnodupRight, haLeft, haRight, hdisjoint⟩ := nodup_node hnodup
    obtain ⟨rfl, l, r, hcell, hleft, hright⟩ := h
    rw [numNodes] at hfuel
    obtain ⟨fuel, rfl⟩ : ∃ n, fuel = n + 1 := ⟨fuel - 1, by omega⟩
    have hnewLeft : ∀ b ∈ new, b ∉ addresses left := fun b hb hmem ↦ hnew b hb (by simp [hmem])
    have hnewRight : ∀ b ∈ new, b ∉ addresses right := fun b hb hmem ↦ hnew b hb (by simp [hmem])
    have hnewRoot : ∀ b ∈ new, b ≠ a := fun b hb heq ↦ hnew b hb (by simp [heq])
    rcases insertOutcome_node_cases value a v left right new with
      ⟨hlt, houtcome⟩ | ⟨hgt, houtcome⟩ | ⟨rfl, houtcome⟩
    · obtain ⟨l', nodes', hcall, hrep, hkeep⟩ :=
        ihLeft hnewLeft hleft hnodupLeft fuel (by omega)
      have ha : a ∉ addresses (insertOutcome value left new) := fun hmem ↦
        (mem_addresses_insertOutcome hmem).elim haLeft fun hmem ↦ hnewRoot a hmem rfl
      have hcell' : nodes' a = some ⟨v, l, r⟩ := (hkeep a ha).trans hcell
      have hright' : Rep nodes' r right := hright.frame fun b hb ↦ hkeep b fun hmem ↦
        (mem_addresses_insertOutcome hmem).elim (fun hmem ↦ hdisjoint b hmem hb)
          fun hmem ↦ hnewRight b hmem hb
      refine ⟨some a, nodes'.put a ⟨v, l', r⟩, ?_, ?_, fun b hb ↦ ?_⟩
      · simp only [insertBSTNode, hcell, Option.bind_eq_bind, Option.bind_some, if_pos hlt, hcall,
          hcell', Option.pure_def]
      · rw [houtcome]
        exact rep_put hrep hright' ha haRight
      · rw [houtcome, addresses_node, List.mem_append, List.mem_cons, not_or, not_or] at hb
        rw [Store.put_of_ne _ hb.2.1, hkeep b hb.1]
    · obtain ⟨r', nodes', hcall, hrep, hkeep⟩ :=
        ihRight hnewRight hright hnodupRight fuel (by omega)
      have ha : a ∉ addresses (insertOutcome value right new) := fun hmem ↦
        (mem_addresses_insertOutcome hmem).elim haRight fun hmem ↦ hnewRoot a hmem rfl
      have hcell' : nodes' a = some ⟨v, l, r⟩ := (hkeep a ha).trans hcell
      have hleft' : Rep nodes' l left := hleft.frame fun b hb ↦ hkeep b fun hmem ↦
        (mem_addresses_insertOutcome hmem).elim (fun hmem ↦ hdisjoint b hb hmem)
          fun hmem ↦ hnewLeft b hmem hb
      refine ⟨some a, nodes'.put a ⟨v, l, r'⟩, ?_, ?_, fun b hb ↦ ?_⟩
      · simp only [insertBSTNode, hcell, Option.bind_eq_bind, Option.bind_some,
          if_neg (lt_asymm hgt), gt_iff_lt, if_pos hgt, hcall, hcell', Option.pure_def]
      · rw [houtcome]
        exact rep_put hleft' hrep haLeft ha
      · rw [houtcome, addresses_node, List.mem_append, List.mem_cons, not_or, not_or] at hb
        rw [Store.put_of_ne _ hb.2.1, hkeep b hb.2.2]
    · refine ⟨some a, nodes, ?_, ?_, fun _ _ ↦ rfl⟩
      · simp only [insertBSTNode, hcell, Option.bind_eq_bind, Option.bind_some, lt_irrefl,
          gt_iff_lt, if_false, Option.pure_def]
      · rw [houtcome]
        exact ⟨rfl, l, r, hcell, hleft, hright⟩

/-! ### `removeNodeFromTree` -/

/-- The successor loop ends at the leftmost node. -/
theorem successor_eq {b : ℕ} (h : Rep nodes (some b) t) {fuel : ℕ} (hfuel : t.numNodes < fuel)
    (d : ℕ × ℤ) : whileLoop (successorBody nodes) fuel b = some (firstOr d t).1 := by
  obtain ⟨fuel, rfl⟩ : ∃ n, fuel = n + 1 := ⟨fuel - 1, by omega⟩
  induction t generalizing b fuel d with
  | nil => exact absurd h (by simp [Rep])
  | node entry left right ihLeft _ =>
    obtain ⟨a, v⟩ := entry
    obtain ⟨hb, l, r, hcell, hleft, -⟩ := h
    obtain rfl := Option.some.inj hb
    rw [numNodes] at hfuel
    cases l with
    | none =>
      obtain rfl : left = nil := hleft.eq_none_iff.mp rfl
      have hbody : successorBody nodes b = some (.inr b) := by
        simp [successorBody, hcell]
      rw [whileLoop_leave hbody]
      rfl
    | some l =>
      have hbody : successorBody nodes b = some (.inl l) := by
        simp [successorBody, hcell]
      obtain ⟨fuel, rfl⟩ : ∃ n, fuel = n + 1 := ⟨fuel - 1, by omega⟩
      rw [whileLoop_continue hbody, ihLeft hleft (b, v) fuel (by omega)]
      rfl

/-- A removal adds no address. -/
theorem mem_addresses_removeValue {value : ℤ} {b : ℕ}
    (h : b ∈ addresses (removeValue value t)) : b ∈ addresses t := by
  induction t generalizing value with
  | nil => exact h
  | node entry left right ihLeft ihRight =>
    obtain ⟨a, v⟩ := entry
    rw [addresses_node, List.mem_append, List.mem_cons]
    rcases removeValue_node_cases value a v left right with
      ⟨-, hremove⟩ | ⟨-, hremove⟩ | ⟨-, rfl, hremove⟩ | ⟨-, -, rfl, hremove⟩ |
        ⟨-, -, s, others, -, hremove⟩ <;> rw [hremove] at h
    · rw [addresses_node, List.mem_append, List.mem_cons] at h
      exact h.imp_left fun hmem ↦ ihLeft hmem
    · rw [addresses_node, List.mem_append, List.mem_cons] at h
      exact h.imp_right (Or.imp_right fun hmem ↦ ihRight hmem)
    · exact Or.inr (Or.inr h)
    · exact Or.inl h
    · rw [addresses_node, List.mem_append, List.mem_cons] at h
      exact h.imp_right (Or.imp_right fun hmem ↦ ihRight hmem)

/-- The successor of a node with a right subtree, as `removeNodeFromTree` finds it. -/
theorem successor_item {b : ℕ} {s : ℤ} {others : List ℤ} (h : Rep nodes (some b) t)
    (hfirst : items t = s :: others) {fuel : ℕ} (hfuel : t.numNodes < fuel) :
    ∃ succ cell, whileLoop (successorBody nodes) fuel b = some succ ∧ nodes succ = some cell ∧
      cell.item = s := by
  have hne : t ≠ nil := by
    rintro rfl
    exact absurd hfirst (by simp)
  have hhead := head?_inorder (b, s) hne
  have hitem : (firstOr (b, s) t).2 = s := by
    have hmap := congrArg (Option.map Prod.snd) hhead
    rw [← List.head?_map, ← items, hfirst] at hmap
    exact (Option.some.inj hmap).symm
  obtain ⟨cell, hcell, hcellItem⟩ := h.allocated (List.mem_of_mem_head? hhead)
  exact ⟨_, cell, successor_eq h hfuel (b, s), hcell, hcellItem.trans hitem⟩

/-- `removeNodeFromTree` turns a tree into its `removeValue`, frees the nodes that drop out and
leaves all other cells alone. -/
theorem removeNodeFromTree_spec (value : ℤ) (h : Rep nodes x t) (hnodup : (addresses t).Nodup)
    {fuel : ℕ} (hfuel : t.numNodes < fuel) :
    ∃ x' nodes', removeNodeFromTree fuel nodes x value = some (x', nodes') ∧
      Rep nodes' x' (removeValue value t) ∧ (∀ b, b ∉ addresses t → nodes' b = nodes b) ∧
      ∀ b ∈ addresses t, b ∉ addresses (removeValue value t) → nodes' b = none := by
  obtain ⟨fuel, rfl⟩ : ∃ n, fuel = n + 1 := ⟨fuel - 1, by omega⟩
  induction t generalizing nodes x value fuel with
  | nil =>
    obtain rfl : x = none := h
    exact ⟨none, nodes, rfl, rfl, fun _ _ ↦ rfl, fun b hb ↦ absurd hb List.not_mem_nil⟩
  | node entry left right ihLeft ihRight =>
    obtain ⟨a, v⟩ := entry
    obtain ⟨hnodupLeft, hnodupRight, haLeft, haRight, hdisjoint⟩ := nodup_node hnodup
    obtain ⟨rfl, l, r, hcell, hleft, hright⟩ := h
    rw [numNodes] at hfuel
    obtain ⟨fuel, rfl⟩ : ∃ n, fuel = n + 1 := ⟨fuel - 1, by omega⟩
    rcases removeValue_node_cases value a v left right with
      ⟨hlt, hremove⟩ | ⟨hgt, hremove⟩ | ⟨rfl, rfl, hremove⟩ | ⟨rfl, hne, rfl, hremove⟩ |
        ⟨rfl, hne, s, others, hfirst, hremove⟩
    · obtain ⟨l', nodes', hcall, hrep, hkeep, hfree⟩ :=
        ihLeft value hleft hnodupLeft fuel (by omega)
      have hcell' : nodes' a = some ⟨v, l, r⟩ := (hkeep a haLeft).trans hcell
      have hright' : Rep nodes' r right :=
        hright.frame fun b hb ↦ hkeep b fun hmem ↦ hdisjoint b hmem hb
      refine ⟨some a, nodes'.put a ⟨v, l', r⟩, ?_, ?_, fun b hb ↦ ?_, fun b hb hout ↦ ?_⟩
      · simp only [removeNodeFromTree, hcell, Option.bind_eq_bind, Option.bind_some, if_pos hlt,
          hcall, hcell', Option.pure_def]
      · rw [hremove]
        exact rep_put hrep hright' (fun hmem ↦ haLeft (mem_addresses_removeValue hmem)) haRight
      · rw [addresses_node, List.mem_append, List.mem_cons, not_or, not_or] at hb
        rw [Store.put_of_ne _ hb.2.1, hkeep b hb.1]
      · rw [hremove, addresses_node, List.mem_append, List.mem_cons, not_or, not_or] at hout
        rw [addresses_node, List.mem_append, List.mem_cons] at hb
        rw [Store.put_of_ne _ hout.2.1]
        exact hfree b (hb.resolve_right (not_or.mpr hout.2)) hout.1
    · obtain ⟨r', nodes', hcall, hrep, hkeep, hfree⟩ :=
        ihRight value hright hnodupRight fuel (by omega)
      have hcell' : nodes' a = some ⟨v, l, r⟩ := (hkeep a haRight).trans hcell
      have hleft' : Rep nodes' l left :=
        hleft.frame fun b hb ↦ hkeep b fun hmem ↦ hdisjoint b hb hmem
      refine ⟨some a, nodes'.put a ⟨v, l, r'⟩, ?_, ?_, fun b hb ↦ ?_, fun b hb hout ↦ ?_⟩
      · simp only [removeNodeFromTree, hcell, Option.bind_eq_bind, Option.bind_some,
          if_neg (lt_asymm hgt), gt_iff_lt, if_pos hgt, hcall, hcell', Option.pure_def]
      · rw [hremove]
        exact rep_put hleft' hrep haLeft fun hmem ↦ haRight (mem_addresses_removeValue hmem)
      · rw [addresses_node, List.mem_append, List.mem_cons, not_or, not_or] at hb
        rw [Store.put_of_ne _ hb.2.1, hkeep b hb.2.2]
      · rw [hremove, addresses_node, List.mem_append, List.mem_cons, not_or, not_or] at hout
        rw [addresses_node, List.mem_append, List.mem_cons] at hb
        rw [Store.put_of_ne _ hout.2.1]
        exact hfree b ((hb.resolve_left hout.1).resolve_left hout.2.1) hout.2.2
    · obtain rfl : l = none := hleft
      refine ⟨r, nodes.free a, ?_, ?_, fun b hb ↦ ?_, fun b hb hout ↦ ?_⟩
      · cases r <;> simp only [removeNodeFromTree, hcell, Option.bind_eq_bind, Option.bind_some,
          gt_iff_lt, lt_irrefl, if_false, Option.pure_def]
      · rw [hremove]
        exact hright.frame fun b hb ↦ Store.free_of_ne _ (ne_of_mem_of_not_mem hb haRight)
      · exact Store.free_of_ne _ fun heq ↦ hb (by simp [heq])
      · rw [hremove] at hout
        obtain rfl : b = a := by simpa [hout] using hb
        exact Store.free_self ..
    · obtain rfl : r = none := hright
      obtain ⟨l, rfl⟩ := Option.ne_none_iff_exists'.mp fun hnone ↦ hne (hleft.eq_none_iff.mp hnone)
      refine ⟨some l, nodes.free a, ?_, ?_, fun b hb ↦ ?_, fun b hb hout ↦ ?_⟩
      · simp only [removeNodeFromTree, hcell, Option.bind_eq_bind, Option.bind_some, gt_iff_lt,
          lt_irrefl, if_false, Option.pure_def]
      · rw [hremove]
        exact hleft.frame fun b hb ↦ Store.free_of_ne _ (ne_of_mem_of_not_mem hb haLeft)
      · exact Store.free_of_ne _ fun heq ↦ hb (by simp [heq])
      · rw [hremove] at hout
        obtain rfl : b = a := by simpa [hout] using hb
        exact Store.free_self ..
    · obtain ⟨l, rfl⟩ := Option.ne_none_iff_exists'.mp fun hnone ↦ hne (hleft.eq_none_iff.mp hnone)
      have hneRight : right ≠ nil := by
        rintro rfl
        exact absurd hfirst (by simp)
      obtain ⟨r, rfl⟩ := Option.ne_none_iff_exists'.mp fun hnone ↦
        hneRight (hright.eq_none_iff.mp hnone)
      obtain ⟨succ, cell, hloop, hsucc, rfl⟩ := successor_item hright hfirst
        (show right.numNodes < fuel + 1 by omega)
      have hright₁ : Rep (nodes.put a ⟨cell.item, some l, some r⟩) (some r) right :=
        hright.frame fun b hb ↦ Store.put_of_ne _ (ne_of_mem_of_not_mem hb haRight) _
      obtain ⟨r', nodes₂, hcall, hrep, hkeep, hfree⟩ :=
        ihRight cell.item hright₁ hnodupRight fuel (by omega)
      have hcell' : nodes₂ a = some ⟨cell.item, some l, some r⟩ :=
        (hkeep a haRight).trans (Store.put_self ..)
      have hleft' : Rep nodes₂ (some l) left := hleft.frame fun b hb ↦
        (hkeep b fun hmem ↦ hdisjoint b hb hmem).trans
          (Store.put_of_ne _ (ne_of_mem_of_not_mem hb haLeft) _)
      refine ⟨some a, nodes₂.put a ⟨cell.item, some l, r'⟩, ?_, ?_, fun b hb ↦ ?_,
        fun b hb hout ↦ ?_⟩
      · rw [removeNodeFromTree]
        simp only [hcell, Option.bind_eq_bind, Option.bind_some, gt_iff_lt, lt_irrefl, if_false,
          hloop, hsucc, hcall, hcell', Option.pure_def]
      · rw [hremove]
        exact rep_put hleft' hrep haLeft fun hmem ↦ haRight (mem_addresses_removeValue hmem)
      · rw [addresses_node, List.mem_append, List.mem_cons, not_or, not_or] at hb
        rw [Store.put_of_ne _ hb.2.1, hkeep b hb.2.2, Store.put_of_ne _ hb.2.1]
      · rw [hremove, addresses_node, List.mem_append, List.mem_cons, not_or, not_or] at hout
        rw [addresses_node, List.mem_append, List.mem_cons] at hb
        rw [Store.put_of_ne _ hout.2.1]
        exact hfree b ((hb.resolve_left hout.1).resolve_left hout.2.1) hout.2.2

end Jungle.SearchTrees
