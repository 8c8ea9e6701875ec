import Jungle.RedBlack.Erase

/-!
# Lookups

What `rbtree_find`, `rbtree_min` and `rbtree_max` return on a tree with ascending keys.
-/

set_option autoImplicit false
set_option relaxedAutoImplicit false

namespace Jungle.RedBlack

open BinaryTree Jungle.Lib

variable {others : Store Node} {t : RbTree} {ctx path : Path} {nil a : ℕ} {key : ℤ} {tree X : Tree}

/-- A node with the key, or the sentinel if there is none. -/
def Finds (nil : ℕ) (live : List (ℕ × ℤ)) (key : ℤ) (a : ℕ) : Prop :=
  (a, key) ∈ live ∨ a = nil ∧ ∀ e ∈ live, e.2 ≠ key

theorem Finds.perm {live live' : List (ℕ × ℤ)} (hfinds : Finds nil live key a)
    (hperm : live.Perm live') : Finds nil live' key a :=
  hfinds.imp hperm.mem_iff.mp fun h ↦ ⟨h.1, fun e he ↦ h.2 e (hperm.mem_iff.mpr he)⟩

theorem entries_node (v : Color × ℕ × ℤ) (left right : Tree) :
    entries (node v left right) = entries left ++ v.2 :: entries right := by
  simp [entries]

/-- The descent of `rbtree_find`. -/
theorem find_loop (key : ℤ) (hholds : Holds others nil (plug ctx tree) t)
    (hsorted : Sorted (plug ctx tree)) :
    ∃ a, Returns (fun fuel ↦ whileLoop (t.findBody key) fuel (ptr nil tree)) a ∧
      Finds nil (entries tree) key a := by
  induction tree generalizing ctx with
  | nil =>
    refine ⟨nil, returns_leave ?_, Or.inr ⟨rfl, fun e he ↦ absurd he List.not_mem_nil⟩⟩
    simp only [RbTree.findBody, ptr_nil, hholds.nil_eq, if_true, Option.pure_def]
  | node v left right ihLeft ihRight =>
    obtain ⟨c, b, k⟩ := v
    obtain ⟨hbelow, habove⟩ := hsorted.node
    have hroot : Holds others nil (plug ctx (join .left (c, b, k) left right)) t := hholds
    have hleft : t.child .left b = some (ptr nil left) := hroot.root_near
    have hright : t.child .right b = some (ptr nil right) := hroot.root_far
    have hbody : t.findBody key b = if k = key then some (.inr b)
        else if key < k then some (.inl (ptr nil left)) else some (.inl (ptr nil right)) := by
      simp only [RbTree.findBody, hroot.nil_eq, if_neg hroot.root_ne_nil, hroot.root_key, hleft,
        hright, Option.bind_eq_bind, Option.bind_some, Option.pure_def, gt_iff_lt]
    by_cases heq : k = key
    · subst heq
      refine ⟨b, returns_leave (hbody.trans (if_pos rfl)), Or.inl ?_⟩
      exact mem_entries_join .left (c, b, k) left right
    rw [if_neg heq] at hbody
    by_cases hless : key < k
    · rw [if_pos hless] at hbody
      obtain ⟨a, hreturns, hfinds⟩ := ihLeft hroot.down hsorted
      refine ⟨a, returns_continue hbody hreturns, ?_⟩
      rw [Finds, entries_node]
      rcases hfinds with hmem | ⟨rfl, habsent⟩
      · exact Or.inl (List.mem_append_left _ hmem)
      · refine Or.inr ⟨rfl, fun e he ↦ ?_⟩
        rcases List.mem_append.mp he with he | he
        · exact habsent e he
        · rcases List.mem_cons.mp he with rfl | he
          · exact heq
          · obtain ⟨v, hv, rfl⟩ := List.mem_map.mp he
            exact (Int.ne_of_lt (Int.lt_of_lt_of_le hless (habove v hv))).symm
    · rw [if_neg hless] at hbody
      obtain ⟨a, hreturns, hfinds⟩ := ihRight hroot.down.swap hsorted
      refine ⟨a, returns_continue hbody hreturns, ?_⟩
      rw [Finds, entries_node]
      rcases hfinds with hmem | ⟨rfl, habsent⟩
      · exact Or.inl (List.mem_append_right _ (List.mem_cons_of_mem _ hmem))
      · refine Or.inr ⟨rfl, fun e he ↦ ?_⟩
        rcases List.mem_append.mp he with he | he
        · obtain ⟨v, hv, rfl⟩ := List.mem_map.mp he
          have hle := hbelow v hv
          omega
        · rcases List.mem_cons.mp he with rfl | he
          · exact heq
          · exact habsent e he

/-- The root pointer is the sentinel's for the empty tree only. -/
theorem Holds.root_eq_nil (hholds : Holds others nil tree t) : t.root = t.nil ↔ tree = .nil := by
  rw [hholds.root, hholds.nil_eq]
  constructor
  · intro heq
    rcases ptr_mem nil tree with hnil | hmem
    · exact hnil
    · exact absurd (heq ▸ hmem) hholds.nil
  · rintro rfl
    rfl

/-- `rbtree_find` returns a node with the key, or the sentinel if there is none. -/
theorem rbtreeFind_returns (hholds : Holds others nil tree t) (hsorted : Sorted tree) (key : ℤ) :
    ∃ a, Returns (fun fuel ↦ t.rbtreeFind fuel key) a ∧ Finds nil (entries tree) key a := by
  unfold RbTree.rbtreeFind
  by_cases hempty : t.root = t.nil
  · obtain rfl := hholds.root_eq_nil.mp hempty
    refine ⟨t.nil, ⟨0, fun _ _ ↦ if_pos hempty⟩, Or.inr ⟨hholds.nil_eq, fun e he ↦ ?_⟩⟩
    exact absurd he List.not_mem_nil
  · have htop : Holds others nil (plug [] tree) t := hholds
    obtain ⟨a, hreturns, hfinds⟩ := find_loop key htop hsorted
    refine ⟨a, ?_, hfinds⟩
    simp only [if_neg hempty]
    rw [hholds.root]
    exact hreturns

/-- A node whose key is first in an order of the keys, or the sentinel if there is no node. -/
def FindsEnd (nil : ℕ) (live : List (ℕ × ℤ)) (le : ℤ → ℤ → Prop) (a : ℕ) : Prop :=
  live = [] ∧ a = nil ∨ ∃ k, (a, k) ∈ live ∧ ∀ e ∈ live, le k e.2

theorem FindsEnd.perm {live live' : List (ℕ × ℤ)} {le : ℤ → ℤ → Prop}
    (hfinds : FindsEnd nil live le a) (hperm : live.Perm live') : FindsEnd nil live' le a := by
  rcases hfinds with ⟨rfl, ha⟩ | ⟨k, hmem, hall⟩
  · exact Or.inl ⟨hperm.nil_eq.symm, ha⟩
  · exact Or.inr ⟨k, hperm.mem_iff.mp hmem, fun e he ↦ hall e (hperm.mem_iff.mpr he)⟩

/-- `rbtree_min` returns a node with the least key. -/
theorem rbtreeMin_returns (hholds : Holds others nil tree t) (hsorted : Sorted tree) :
    ∃ a, Returns (fun fuel ↦ t.rbtreeMin fuel) a ∧ FindsEnd nil (entries tree) (· ≤ ·) a := by
  unfold RbTree.rbtreeMin
  by_cases hempty : t.root = t.nil
  · exact ⟨t.nil, ⟨0, fun _ _ ↦ if_pos hempty⟩,
      Or.inl ⟨by rw [hholds.root_eq_nil.mp hempty, entries_nil], hholds.nil_eq⟩⟩
  · have hne := mt hholds.root_eq_nil.mpr hempty
    obtain ⟨path, ⟨c, a, k⟩, X, rfl, hsides⟩ := exists_outermost .left hne
    have htop : Holds others nil (plug [] (plug path (join .left (c, a, k) .nil X))) t := hholds
    have hentries : entries (plug path (join .left (c, a, k) .nil X)) =
        (a, k) :: (entries X ++ (after path).map Prod.snd) := by
      simp [entries, join, inorder_plug, before_left hsides]
    refine ⟨a, ?_, Or.inr ⟨k, ?_, fun e he ↦ ?_⟩⟩
    · simp only [if_neg hempty]
      rw [hholds.root]
      exact walk_loop hsides htop
    · rw [hentries]
      exact List.mem_cons_self
    · rw [Sorted, hentries] at hsorted
      rw [hentries] at he
      rcases List.mem_cons.mp he with rfl | he
      · exact Int.le_refl _
      · exact (List.pairwise_cons.mp hsorted).1 e he

theorem after_right (hpath : ∀ f ∈ path, f.side = .right) : after path = [] := by
  induction path with
  | nil => rfl
  | cons f path ih =>
    obtain ⟨side, v, sibling⟩ := f
    obtain rfl : side = .right := hpath _ List.mem_cons_self
    exact ih fun f hf ↦ hpath f (List.mem_cons_of_mem _ hf)

/-- `rbtree_max` returns a node with the greatest key. -/
theorem rbtreeMax_returns (hholds : Holds others nil tree t) (hsorted : Sorted tree) :
    ∃ a, Returns (fun fuel ↦ t.rbtreeMax fuel) a ∧ FindsEnd nil (entries tree) (· ≥ ·) a := by
  unfold RbTree.rbtreeMax
  by_cases hempty : t.root = t.nil
  · exact ⟨t.nil, ⟨0, fun _ _ ↦ if_pos hempty⟩,
      Or.inl ⟨by rw [hholds.root_eq_nil.mp hempty, entries_nil], hholds.nil_eq⟩⟩
  · have hne := mt hholds.root_eq_nil.mpr hempty
    obtain ⟨path, ⟨c, a, k⟩, X, rfl, hsides⟩ := exists_outermost .right hne
    have htop : Holds others nil (plug [] (plug path (join .right (c, a, k) .nil X))) t := hholds
    have hentries : entries (plug path (join .right (c, a, k) .nil X)) =
        (before path).map Prod.snd ++ entries X ++ [(a, k)] := by
      simp [entries, join, inorder_plug, after_right hsides]
    refine ⟨a, ?_, Or.inr ⟨k, ?_, fun e he ↦ ?_⟩⟩
    · simp only [if_neg hempty]
      rw [hholds.root]
      exact walk_loop hsides htop
    · rw [hentries]
      exact List.mem_append_right _ (List.mem_singleton_self _)
    · rw [Sorted, hentries, List.pairwise_append] at hsorted
      rw [hentries] at he
      rcases List.mem_append.mp he with he | he
      · exact hsorted.2.2 e he (a, k) (List.mem_singleton_self _)
      · obtain rfl := List.mem_singleton.mp he
        exact Int.le_refl k

end Jungle.RedBlack
