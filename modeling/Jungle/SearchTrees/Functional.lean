import Jungle.Lib.OrderedTree
import Mathlib.Data.List.Basic
import Mathlib.Data.Int.Order.Basic
import Mathlib.Tactic.Tauto

/-!
# Insertion and removal on trees

The abstract trees carry the address and the item of every node. `insertValue` and `removeValue`
are what `insertBSTNode` and `removeNodeFromTree` do to them. On a strictly ordered tree removal
filters the value out of the in-order items (`items_removeValue`) and insertion adds it
(`mem_items_insertValue`), both keep the order, and a removal of a present value takes exactly one
address out (`addresses_removeValue`).
-/

set_option autoImplicit false
set_option relaxedAutoImplicit false

namespace Jungle.SearchTrees

open BinaryTree Jungle.Lib

/-- A tree of addresses with items. -/
abbrev Entries := BinaryTree (ℕ × ℤ)

/-- The items of a tree in order. -/
def items (t : Entries) : List ℤ := (inorder t).map Prod.snd

/-- The addresses of a tree in order. -/
def addresses (t : Entries) : List ℕ := (inorder t).map Prod.fst

/-- Everything left of a node is smaller, everything right of it larger. -/
def StrictlyOrdered (t : Entries) : Prop := OrderedBy (fun entry other ↦ entry.2 < other.2) t

@[simp] theorem items_nil : items nil = [] := rfl

@[simp] theorem items_node (a : ℕ) (v : ℤ) (left right : Entries) :
    items (node (a, v) left right) = items left ++ v :: items right := by
  simp [items]

@[simp] theorem addresses_nil : addresses nil = [] := rfl

@[simp] theorem addresses_node (a : ℕ) (v : ℤ) (left right : Entries) :
    addresses (node (a, v) left right) = addresses left ++ a :: addresses right := by
  simp [addresses]

theorem strictlyOrdered_node {a : ℕ} {v : ℤ} {left right : Entries} :
    StrictlyOrdered (node (a, v) left right) ↔ StrictlyOrdered left ∧ StrictlyOrdered right ∧
      (∀ w ∈ items left, w < v) ∧ ∀ w ∈ items right, v < w := by
  simp only [StrictlyOrdered, OrderedBy, items, List.mem_map, forall_exists_index, and_imp,
    forall_apply_eq_imp_iff₂]

/-- A tree is strictly ordered if and only if its items are strictly ascending. -/
theorem strictlyOrdered_iff {t : Entries} :
    StrictlyOrdered t ↔ (items t).Pairwise (· < ·) := by
  have htrans : ∀ u v w : ℕ × ℤ, u.2 < v.2 → v.2 < w.2 → u.2 < w.2 := fun _ _ _ ↦ lt_trans
  rw [StrictlyOrdered, orderedBy_iff_pairwise htrans, items, List.pairwise_map]

/-! ### Insertion -/

/-- Inserts an absent value as a new leaf at the address `new`. -/
def insertValue (value : ℤ) (new : ℕ) : Entries → Entries
  | nil => node (new, value) nil nil
  | node (a, v) left right =>
    if value < v then node (a, v) (insertValue value new left) right
    else if value > v then node (a, v) left (insertValue value new right)
    else node (a, v) left right

/-- Insertion adds the value to the items. -/
theorem mem_items_insertValue (value : ℤ) (new : ℕ) (t : Entries) (w : ℤ) :
    w ∈ items (insertValue value new t) ↔ w = value ∨ w ∈ items t := by
  induction t with
  | nil => simp [insertValue]
  | node entry left right ihLeft ihRight =>
    obtain ⟨a, v⟩ := entry
    unfold insertValue
    split_ifs with hlt hgt
    · rw [items_node, items_node, List.mem_append, List.mem_append, ihLeft, or_assoc]
    · rw [items_node, items_node, List.mem_append, List.mem_append, List.mem_cons, List.mem_cons,
        ihRight]
      tauto
    · have heq : v = value := by omega
      rw [items_node, List.mem_append, List.mem_cons, heq]
      tauto

/-- Insertion keeps the order. -/
theorem strictlyOrdered_insertValue (value : ℤ) (new : ℕ) {t : Entries}
    (h : StrictlyOrdered t) : StrictlyOrdered (insertValue value new t) := by
  induction t with
  | nil => simp [insertValue, StrictlyOrdered, OrderedBy]
  | node entry left right ihLeft ihRight =>
    obtain ⟨a, v⟩ := entry
    obtain ⟨hleft, hright, hbelow, habove⟩ := strictlyOrdered_node.mp h
    unfold insertValue
    split_ifs with hlt hgt
    · refine strictlyOrdered_node.mpr ⟨ihLeft hleft, hright, fun w hw ↦ ?_, habove⟩
      rcases (mem_items_insertValue value new left w).mp hw with rfl | hw
      · exact hlt
      · exact hbelow w hw
    · refine strictlyOrdered_node.mpr ⟨hleft, ihRight hright, hbelow, fun w hw ↦ ?_⟩
      rcases (mem_items_insertValue value new right w).mp hw with rfl | hw
      · exact hgt
      · exact habove w hw
    · exact h

/-- Insertion of an absent value adds the new address. -/
theorem addresses_insertValue {value : ℤ} (new : ℕ) {t : Entries} (hordered : StrictlyOrdered t)
    (habsent : value ∉ items t) :
    ∃ front back, addresses t = front ++ back ∧
      addresses (insertValue value new t) = front ++ new :: back := by
  induction t with
  | nil => exact ⟨[], [], rfl, rfl⟩
  | node entry left right ihLeft ihRight =>
    obtain ⟨a, v⟩ := entry
    obtain ⟨hleft, hright, -, -⟩ := strictlyOrdered_node.mp hordered
    rw [items_node, List.mem_append, List.mem_cons, not_or, not_or] at habsent
    unfold insertValue
    split_ifs with hlt hgt
    · obtain ⟨front, back, hsplit, hinsert⟩ := ihLeft hleft habsent.1
      exact ⟨front, back ++ a :: addresses right, by simp [hsplit], by simp [hinsert]⟩
    · obtain ⟨front, back, hsplit, hinsert⟩ := ihRight hright habsent.2.2
      exact ⟨addresses left ++ a :: front, back, by simp [hsplit], by simp [hinsert]⟩
    · omega

/-! ### Removal -/

/-- Removes a value. A node with two subtrees takes over the least value on its right, which is then
removed from there. -/
def removeValue (value : ℤ) : Entries → Entries
  | nil => nil
  | node (a, v) left right =>
    if value < v then node (a, v) (removeValue value left) right
    else if value > v then node (a, v) left (removeValue value right)
    else if left = nil then right
    else if right = nil then left
    else node (a, (firstOr (a, v) right).2) left (removeValue (firstOr (a, v) right).2 right)

/-- The three ways a removal goes at a node: into one subtree, by dropping the node, or by taking
over the least value on the right. -/
theorem removeValue_node_cases (value : ℤ) (a : ℕ) (v : ℤ) (left right : Entries) :
    value < v ∧ removeValue value (node (a, v) left right) =
        node (a, v) (removeValue value left) right ∨
      v < value ∧ removeValue value (node (a, v) left right) =
        node (a, v) left (removeValue value right) ∨
      value = v ∧ left = nil ∧ removeValue value (node (a, v) left right) = right ∨
      value = v ∧ left ≠ nil ∧ right = nil ∧ removeValue value (node (a, v) left right) = left ∨
      value = v ∧ left ≠ nil ∧ ∃ s : ℤ, ∃ others, items right = s :: others ∧
        removeValue value (node (a, v) left right) = node (a, s) left (removeValue s right) := by
  rcases lt_trichotomy value v with hlt | rfl | hgt
  · exact Or.inl ⟨hlt, by rw [removeValue, if_pos hlt]⟩
  · refine Or.inr (Or.inr ?_)
    rw [removeValue, if_neg (lt_irrefl _), if_neg (lt_irrefl _)]
    by_cases hleft : left = nil
    · exact Or.inl ⟨rfl, hleft, if_pos hleft⟩
    · rw [if_neg hleft]
      by_cases hright : right = nil
      · exact Or.inr (Or.inl ⟨rfl, hleft, hright, if_pos hright⟩)
      · rw [if_neg hright]
        have hhead : (items right).head? = some (firstOr (a, value) right).2 := by
          rw [items, List.head?_map, head?_inorder (a, value) hright]
          rfl
        obtain ⟨others, hothers⟩ := List.head?_eq_some_iff.mp hhead
        exact Or.inr (Or.inr ⟨rfl, hleft, _, others, hothers, rfl⟩)
  · exact Or.inr (Or.inl ⟨hgt, by rw [removeValue, if_neg (lt_asymm hgt), if_pos hgt]⟩)

/-- Items that are all different from a value are not filtered out. -/
theorem filter_ne_eq_self {values : List ℤ} {value : ℤ} (h : ∀ w ∈ values, w ≠ value) :
    values.filter (fun w ↦ decide (w ≠ value)) = values :=
  List.filter_eq_self.mpr fun w hw ↦ by simpa using h w hw

/-- Removal filters the value out of the items. -/
theorem items_removeValue (value : ℤ) {t : Entries} (h : StrictlyOrdered t) :
    items (removeValue value t) = (items t).filter fun w ↦ decide (w ≠ value) := by
  induction t generalizing value with
  | nil => rfl
  | node entry left right ihLeft ihRight =>
    obtain ⟨a, v⟩ := entry
    obtain ⟨hleft, hright, hbelow, habove⟩ := strictlyOrdered_node.mp h
    rw [items_node, List.filter_append, List.filter_cons]
    rcases removeValue_node_cases value a v left right with
      ⟨hlt, hremove⟩ | ⟨hgt, hremove⟩ | ⟨rfl, rfl, hremove⟩ | ⟨rfl, -, rfl, hremove⟩ |
        ⟨rfl, -, s, others, hfirst, hremove⟩
    · have hkeep : (items right).filter (fun w ↦ decide (w ≠ value)) = items right :=
        filter_ne_eq_self fun w hw ↦ by have hw := habove w hw; omega
      rw [hremove, items_node, ihLeft value hleft, hkeep, if_pos (by simpa using ne_of_gt hlt)]
    · have hkeep : (items left).filter (fun w ↦ decide (w ≠ value)) = items left :=
        filter_ne_eq_self fun w hw ↦ by have hw := hbelow w hw; omega
      rw [hremove, items_node, ihRight value hright, hkeep, if_pos (by simpa using ne_of_lt hgt)]
    · rw [hremove, if_neg (by simp), filter_ne_eq_self fun w hw ↦ ne_of_gt (habove w hw)]
      rfl
    · rw [hremove, if_neg (by simp), filter_ne_eq_self fun w hw ↦ ne_of_lt (hbelow w hw)]
      simp
    · have hordered := strictlyOrdered_iff.mp hright
      rw [hfirst, List.pairwise_cons] at hordered
      have hrest : (items right).filter (fun w ↦ decide (w ≠ s)) = others := by
        rw [hfirst, List.filter_cons, if_neg (by simp)]
        exact filter_ne_eq_self fun w hw ↦ ne_of_gt (hordered.1 w hw)
      rw [hremove, items_node, ihRight s hright, hrest, if_neg (by simp),
        filter_ne_eq_self fun w hw ↦ ne_of_lt (hbelow w hw),
        filter_ne_eq_self fun w hw ↦ ne_of_gt (habove w hw), hfirst]

/-- Removal keeps the order. -/
theorem strictlyOrdered_removeValue (value : ℤ) {t : Entries} (h : StrictlyOrdered t) :
    StrictlyOrdered (removeValue value t) := by
  rw [strictlyOrdered_iff, items_removeValue value h]
  exact (strictlyOrdered_iff.mp h).filter _

/-- Removal of an absent value changes nothing. -/
theorem removeValue_of_not_mem {value : ℤ} {t : Entries} (hordered : StrictlyOrdered t)
    (habsent : value ∉ items t) : removeValue value t = t := by
  induction t with
  | nil => rfl
  | node entry left right ihLeft ihRight =>
    obtain ⟨a, v⟩ := entry
    obtain ⟨hleft, hright, -, -⟩ := strictlyOrdered_node.mp hordered
    rw [items_node, List.mem_append, List.mem_cons, not_or, not_or] at habsent
    rcases removeValue_node_cases value a v left right with
      ⟨-, hremove⟩ | ⟨-, hremove⟩ | ⟨heq, -⟩ | ⟨heq, -⟩ | ⟨heq, -⟩
    · rw [hremove, ihLeft hleft habsent.1]
    · rw [hremove, ihRight hright habsent.2.2]
    all_goals exact absurd heq habsent.2.1

/-- Removal of a present value takes one address out. -/
theorem addresses_removeValue {value : ℤ} {t : Entries} (hordered : StrictlyOrdered t)
    (hpresent : value ∈ items t) :
    ∃ front b back, addresses t = front ++ b :: back ∧
      addresses (removeValue value t) = front ++ back := by
  induction t generalizing value with
  | nil => exact absurd hpresent List.not_mem_nil
  | node entry left right ihLeft ihRight =>
    obtain ⟨a, v⟩ := entry
    obtain ⟨hleft, hright, hbelow, habove⟩ := strictlyOrdered_node.mp hordered
    rw [items_node, List.mem_append, List.mem_cons] at hpresent
    rcases removeValue_node_cases value a v left right with
      ⟨hlt, hremove⟩ | ⟨hgt, hremove⟩ | ⟨-, rfl, hremove⟩ | ⟨-, -, rfl, hremove⟩ |
        ⟨-, -, s, others, hfirst, hremove⟩
    · have hmem : value ∈ items left := by
        rcases hpresent with hmem | rfl | hmem
        · exact hmem
        · exact absurd hlt (lt_irrefl _)
        · exact absurd (habove value hmem) (lt_asymm hlt)
      obtain ⟨front, b, back, hsplit, hrest⟩ := ihLeft hleft hmem
      exact ⟨front, b, back ++ a :: addresses right, by simp [hsplit], by simp [hremove, hrest]⟩
    · have hmem : value ∈ items right := by
        rcases hpresent with hmem | rfl | hmem
        · exact absurd (hbelow value hmem) (lt_asymm hgt)
        · exact absurd hgt (lt_irrefl _)
        · exact hmem
      obtain ⟨front, b, back, hsplit, hrest⟩ := ihRight hright hmem
      exact ⟨addresses left ++ a :: front, b, back, by simp [hsplit], by simp [hremove, hrest]⟩
    · exact ⟨[], a, addresses right, by simp, by simp [hremove]⟩
    · exact ⟨addresses left, a, [], by simp, by simp [hremove]⟩
    · obtain ⟨front, b, back, hsplit, hrest⟩ := ihRight hright (show s ∈ items right by simp [hfirst])
      exact ⟨addresses left ++ a :: front, b, back, by simp [hsplit], by simp [hremove, hrest]⟩

end Jungle.SearchTrees
