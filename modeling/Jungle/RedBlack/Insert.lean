import Jungle.RedBlack.Steps
import Mathlib.Data.List.Induction

/-!
# Insertion

The fix-up after an insertion. In each round the tree is balanced but for a red node below a red one
(`Accepts` and `Balanced`); a round moves that node two levels up, or rotates and is the last one.
-/

set_option autoImplicit false
set_option relaxedAutoImplicit false

namespace Jungle.RedBlack

open BinaryTree Jungle.Lib

variable {others : Store Node} {t : RbTree} {ctx : Path} {s side r : Side} {nil p g z parent h : ℕ}
  {kp kg kz : ℤ} {Z A B sibling uncle : Tree}

/-! ### One round of the fix-up -/

/-- A red uncle: the grandparent becomes the red node. -/
theorem fixupSide_red
    (hholds : Holds others nil (plug (⟨side, (.red, p, kp), sibling⟩ ::
      ⟨s, (.black, g, kg), uncle⟩ :: ctx) (join r (.red, z, kz) A B)) t)
    (huncle : rootColor uncle = .red) :
    ∃ t', RbTree.fixupSide s t z = some (t', g) ∧
      Holds others nil
      (plug ctx (join s (.red, g, kg) (join side (.black, p, kp) (join r (.red, z, kz) A B) sibling)
        (paint .black uncle))) t' := by
  have hparent := hholds.up
  have hgrandparent := hparent.up
  obtain ⟨⟨c, u, ku⟩, C, D, rfl⟩ := exists_join .left (t := uncle) (by rintro rfl; simp at huncle)
  obtain rfl : c = .red := (rootColor_join ..).symm.trans huncle
  obtain ⟨t₁, hset₁, h₁⟩ := hparent.setColor .black
  obtain ⟨t₂, hset₂, h₂⟩ := h₁.swap.setColor .black
  obtain ⟨t₃, hset₃, h₃⟩ := h₂.unswap.up.setColor .red
  refine ⟨t₃, ?_, ?_⟩
  · simp only [RbTree.fixupSide, hholds.root_parent, hparent.root_parent, parentOf_cons,
      hgrandparent.root_far, ptr_join, hgrandparent.down.swap.root_color,
      Option.bind_eq_bind, Option.bind_some, if_true, hset₁, hset₂, hset₃, Option.pure_def]
  · rw [paint_join]
    exact h₃

theorem fixupBody_leave (hparent : t.parent z = some p) (hcolor : t.color p = some .black) :
    RbTree.fixupBody (t, z) = some (.inr t) := by
  simp [RbTree.fixupBody, hparent, hcolor]

/-- A black uncle and the red nodes on the same side. -/
theorem fixupSide_outer (hsentinel : Sentinel others nil parent)
    (hholds : Holds others nil (plug (⟨s, (.red, p, kp), sibling⟩ ::
      ⟨s, (.black, g, kg), uncle⟩ :: ctx) (join r (.red, z, kz) A B)) t)
    (huncle : rootColor uncle = .black) :
    ∃ t', RbTree.fixupSide s t z = some (t', z) ∧
      Holds others nil
      (plug ctx (join s (.black, p, kp) (join r (.red, z, kz) A B)
        (join s (.red, g, kg) sibling uncle))) t' := by
  have hparent := hholds.up
  have hgrandparent := hparent.up
  have hne : z ≠ ptr nil sibling := by
    have hne := hparent.ptr_ne (join_ne_nil _ _ _ _)
    rwa [ptr_join] at hne
  obtain ⟨t₁, hset₁, h₁⟩ := hparent.setColor .black
  obtain ⟨t₂, hset₂, h₂⟩ := h₁.up.setColor .red
  have hrotate : Holds others nil (plug ctx (join s.other (.red, g, kg) uncle
      (join s.other (.black, p, kp) sibling (join r (.red, z, kz) A B)))) t₂ := by
    rw [join_other, join_other]
    exact h₂
  obtain ⟨t₃, hset₃, h₃⟩ := hrotate.rotate
  rw [join_other, join_other] at h₃
  refine ⟨t₃, ?_, h₃⟩
  simp only [RbTree.fixupSide, hholds.root_parent, hparent.root_parent, parentOf_cons,
    hgrandparent.root_far, hgrandparent.down.swap.color_ptr hsentinel, huncle, reduceCtorEq,
    if_false, Option.bind_eq_bind, Option.bind_some, hparent.root_far, if_neg hne, hset₁,
    h₁.root_parent, hset₂, hset₃, Option.pure_def]

/-- A black uncle and the red nodes on different sides. -/
theorem fixupSide_inner (hsentinel : Sentinel others nil parent)
    (hholds : Holds others nil (plug (⟨s.other, (.red, p, kp), sibling⟩ ::
      ⟨s, (.black, g, kg), uncle⟩ :: ctx) (join s (.red, z, kz) A B)) t)
    (huncle : rootColor uncle = .black) :
    ∃ t', RbTree.fixupSide s t z = some (t', p) ∧
      Holds others nil
      (plug ctx (join s (.black, z, kz) (join s (.red, p, kp) sibling A)
        (join s (.red, g, kg) B uncle))) t' := by
  have hparent := hholds.up
  have hgrandparent := hparent.up
  have hfirst : Holds others nil (plug (⟨s, (.black, g, kg), uncle⟩ :: ctx)
      (join s (.red, p, kp) sibling (join s (.red, z, kz) A B))) t := by
    rw [← join_other]
    exact hparent
  obtain ⟨t₁, hset₁, h₁⟩ := hfirst.rotate
  obtain ⟨t₂, hset₂, h₂⟩ := h₁.setColor .black
  obtain ⟨t₃, hset₃, h₃⟩ := h₂.up.setColor .red
  have hsecond : Holds others nil (plug ctx (join s.other (.red, g, kg) uncle
      (join s.other (.black, z, kz) B (join s (.red, p, kp) sibling A)))) t₃ := by
    rw [join_other, join_other]
    exact h₃
  obtain ⟨t₄, hset₄, h₄⟩ := hsecond.rotate
  rw [join_other, join_other] at h₄
  refine ⟨t₄, ?_, h₄⟩
  simp only [RbTree.fixupSide, hholds.root_parent, hparent.root_parent, parentOf_cons,
    hgrandparent.root_far, hgrandparent.down.swap.color_ptr hsentinel, huncle, reduceCtorEq,
    if_false, Option.bind_eq_bind, Option.bind_some, hfirst.root_far, ptr_join, if_true, hset₁,
    Option.map_some, h₁.down.root_parent, hset₂, h₂.root_parent, hset₃, hset₄, Option.pure_def]

/-- A round of the fix-up chooses the side of the parent. -/
theorem fixupBody_eq (hholds : Holds others nil (plug (⟨side, (.red, p, kp), sibling⟩ ::
      ⟨s, (.black, g, kg), uncle⟩ :: ctx) (join r (.red, z, kz) A B)) t) :
    RbTree.fixupBody (t, z) = (RbTree.fixupSide s t z).map .inl := by
  have hparent := hholds.up
  have hgrandparent := hparent.up
  have hne : p ≠ ptr nil uncle := by
    have hne := hgrandparent.ptr_ne (join_ne_nil _ _ _ _)
    rwa [ptr_join] at hne
  cases s with
  | left =>
    have hchild := hgrandparent.root_near
    simp only [ptr_join] at hchild
    simp only [RbTree.fixupBody, hholds.root_parent, parentOf_cons, hparent.root_color,
      hparent.root_parent, hchild, Option.bind_eq_bind, Option.bind_some, if_true]
  | right =>
    have hchild := hgrandparent.root_far
    simp only [Side.other] at hchild
    simp only [RbTree.fixupBody, hholds.root_parent, parentOf_cons, hparent.root_color,
      hparent.root_parent, hchild, Option.bind_eq_bind, Option.bind_some, if_true, if_neg hne]

/-! ### The loop -/

/-- The last round's tree: two red nodes below a black one, in the place of the grandparent. -/
theorem balanced_rotated {v v' v'' : ℕ × ℤ} {A B C D : Tree} (hA : Balanced A h)
    (hB : Balanced B h) (hC : Balanced C h) (hD : Balanced D h) (hblackA : rootColor A = .black)
    (hblackB : rootColor B = .black) (hblackC : rootColor C = .black)
    (hblackD : rootColor D = .black) :
    Balanced (join s (.black, v) (join s (.red, v') A B) (join s (.red, v'') C D)) (h + 1) :=
  balanced_black.mpr ⟨balanced_red.mpr ⟨hblackA, hblackB, hA, hB⟩,
    balanced_red.mpr ⟨hblackC, hblackD, hC, hD⟩⟩

/-- A round with a red parent and a black uncle ends the loop with a balanced tree. -/
theorem fixup_rotate (hsentinel : Sentinel others nil parent)
    (hholds : Holds others nil (plug (⟨side, (.red, p, kp), sibling⟩ ::
      ⟨s, (.black, g, kg), uncle⟩ :: ctx) (join r (.red, z, kz) A B)) t)
    (huncle : rootColor uncle = .black) (hsibling : rootColor sibling = .black)
    (hheight : Balanced (join r (.red, z, kz) A B) h) (hsiblingHeight : Balanced sibling h)
    (huncleHeight : Balanced uncle h) :
    ∃ t' T, Returns (fun fuel ↦ whileLoop RbTree.fixupBody fuel (t, z)) t' ∧
      Holds others nil (plug ctx T) t' ∧ rootColor T = .black ∧ Balanced T (h + 1) ∧
      entries T = entries (join s (.black, g, kg) (join side (.red, p, kp)
        (join r (.red, z, kz) A B) sibling) uncle) := by
  have hround := fixupBody_eq hholds
  rcases Side.eq_or_eq_other s side with rfl | rfl
  · obtain ⟨t', hside, hholds'⟩ := fixupSide_outer hsentinel hholds huncle
    rw [hside] at hround
    refine ⟨t', _, returns_continue hround (returns_leave (fixupBody_leave
      hholds'.down.root_parent hholds'.root_color)), hholds', rootColor_join .., ?_, ?_⟩
    · exact balanced_black.mpr ⟨hheight, balanced_red.mpr
        ⟨hsibling, huncle, hsiblingHeight, huncleHeight⟩⟩
    · exact (entries_rotate ..).symm.trans (entries_join_congr _ rfl
        (entries_join_congr _ rfl rfl rfl) rfl)
  · obtain ⟨A', B', hZ⟩ := exists_join_eq r s (Color.red, z, kz) A B
    rw [hZ] at hholds hheight ⊢
    obtain ⟨hblackA, hblackB, hheightA, hheightB⟩ := balanced_red.mp hheight
    obtain ⟨t', hside, hholds'⟩ := fixupSide_inner hsentinel hholds huncle
    rw [hside] at hround
    refine ⟨t', _, returns_continue hround (returns_leave (fixupBody_leave
      hholds'.down.root_parent hholds'.root_color)), hholds', rootColor_join .., ?_, ?_⟩
    · exact balanced_rotated hsiblingHeight hheightA hheightB huncleHeight hsibling hblackA hblackB
        huncle
    · rw [join_other]
      calc entries (join s (.black, z, kz) (join s (.red, p, kp) sibling A')
            (join s (.red, g, kg) B' uncle))
        _ = entries (join s (.red, g, kg) (join s (.black, z, kz)
              (join s (.red, p, kp) sibling A') B') uncle) := (entries_rotate ..).symm
        _ = entries (join s (.black, g, kg) (join s (.red, p, kp) sibling
              (join s (.red, z, kz) A' B')) uncle) :=
          entries_join_congr _ rfl ((entries_rotate ..).trans
            (entries_join_congr _ rfl rfl (entries_join_congr _ rfl rfl rfl))) rfl

/-- A black parent ends the loop. -/
theorem fixup_black {f : Frame (Color × ℕ × ℤ)}
    (hholds : Holds others nil (plug (f :: ctx) (join r (.red, z, kz) A B)) t)
    (hblack : f.value.1 = .black) (haccepts : Accepts (f :: ctx) h .black)
    (hheight : Balanced (join r (.red, z, kz) A B) h) :
    ∃ t' T, Returns (fun fuel ↦ whileLoop RbTree.fixupBody fuel (t, z)) t' ∧
      Holds others nil T t' ∧ (∃ h', Balanced (paint .black T) h') ∧
      entries T = entries (plug (f :: ctx) (join r (.red, z, kz) A B)) := by
  obtain ⟨s, ⟨c, p, kp⟩, sibling⟩ := f
  obtain rfl : c = .black := hblack
  obtain ⟨hsibling, hrest⟩ := haccepts
  have hfill : Balanced (join s (.black, p, kp) (join r (.red, z, kz) A B) sibling) (h + 1) :=
    balanced_black.mpr ⟨hheight, hsibling⟩
  obtain ⟨h', hbalanced, hroot⟩ := hrest.balanced (rootColor_join ..) hfill
  exact ⟨t, _, returns_leave (fixupBody_leave hholds.root_parent hholds.up.root_color), hholds,
    ⟨h', (paint_eq_self hroot).symm ▸ hbalanced⟩, rfl⟩

/-- The loop of the fix-up ends with a tree that is balanced once its root is black. -/
theorem fixup_loop (hsentinel : Sentinel others nil parent)
    (hholds : Holds others nil (plug ctx (join r (.red, z, kz) A B)) t)
    (haccepts : Accepts ctx h .black) (hheight : Balanced (join r (.red, z, kz) A B) h) :
    ∃ t' T, Returns (fun fuel ↦ whileLoop RbTree.fixupBody fuel (t, z)) t' ∧
      Holds others nil T t' ∧ (∃ h', Balanced (paint .black T) h') ∧
      entries T = entries (plug ctx (join r (.red, z, kz) A B)) := by
  induction ctx using List.twoStepInduction generalizing t r z kz A B h with
  | nil =>
    obtain ⟨k, hnil⟩ := hholds.sentinel hsentinel
    exact ⟨t, _, returns_leave (fixupBody_leave hholds.root_parent (color_eq hnil)), hholds,
      ⟨_, hheight.paint_black (rootColor_join ..)⟩, rfl⟩
  | singleton f =>
    by_cases hblack : f.value.1 = .black
    · exact fixup_black hholds hblack haccepts hheight
    · obtain ⟨-, -, _, _, _, _, heq, -⟩ := haccepts.red_parent (Color.eq_red_of_ne hblack)
      exact absurd heq (by simp)
  | cons_cons f f' ctx ih _ =>
    by_cases hblack : f.value.1 = .black
    · exact fixup_black hholds hblack haccepts hheight
    · obtain ⟨hsibling, hsiblingHeight, s, ⟨g, kg⟩, uncle, outer, heq, huncleHeight, hrest⟩ :=
        haccepts.red_parent (Color.eq_red_of_ne hblack)
      obtain ⟨rfl, rfl⟩ := List.cons.inj heq
      obtain ⟨side, ⟨c, p, kp⟩, sibling⟩ := f
      obtain rfl : c = .red := Color.eq_red_of_ne hblack
      by_cases huncle : rootColor uncle = .black
      · obtain ⟨t', T, hreturns, hholds', hroot, hbalanced, hentries⟩ := fixup_rotate hsentinel
          hholds huncle hsibling hheight hsiblingHeight huncleHeight
        obtain ⟨h', hbalanced', hroot'⟩ := hrest.balanced hroot hbalanced
        exact ⟨t', _, hreturns, hholds', ⟨h', (paint_eq_self hroot').symm ▸ hbalanced'⟩,
          entries_plug_congr _ hentries⟩
      · have hred := Color.eq_red_of_ne huncle
        obtain ⟨t₁, hside, hholds₁⟩ := fixupSide_red hholds hred
        have hround := fixupBody_eq hholds
        rw [hside] at hround
        obtain ⟨t', T, hreturns, hholds', hbalanced, hentries⟩ := ih
          hholds₁ hrest (balanced_red.mpr ⟨rootColor_join .., rootColor_paint_black uncle,
            balanced_black.mpr ⟨hheight, hsiblingHeight⟩, huncleHeight.paint_black hred⟩)
        refine ⟨t', T, returns_continue hround hreturns, hholds', hbalanced,
          hentries.trans (entries_plug_congr _ ?_)⟩
        exact entries_join_congr _ rfl (entries_join_congr _ rfl rfl rfl) (entries_paint ..)

/-- `rbtree_fixup` ends with a balanced tree of the same entries. -/
theorem rbtreeFixup_returns (hsentinel : Sentinel others nil parent)
    (hholds : Holds others nil (plug ctx (join r (.red, z, kz) A B)) t)
    (haccepts : Accepts ctx h .black) (hheight : Balanced (join r (.red, z, kz) A B) h) :
    ∃ t' T, Returns (fun fuel ↦ RbTree.rbtreeFixup fuel t z) t' ∧
      Holds others nil T t' ∧ (∃ h', Balanced T h') ∧ rootColor T = .black ∧
      entries T = entries (plug ctx (join r (.red, z, kz) A B)) := by
  obtain ⟨t₁, T, hloop, hholds₁, hbalanced, hentries⟩ :=
    fixup_loop hsentinel hholds haccepts hheight
  have hne : T ≠ .nil := by
    rintro rfl
    have hmem : (z, kz) ∈ entries (plug ctx (join r (.red, z, kz) A B)) := by
      rw [entries_plug]
      exact List.mem_append_left _ (List.mem_append_right _ (mem_entries_join ..))
    rw [← hentries] at hmem
    exact absurd hmem List.not_mem_nil
  obtain ⟨⟨c, a, k⟩, near, far, rfl⟩ := exists_join .left hne
  have hroot : t₁.root = a := hholds₁.root
  have htop : Holds others nil (plug [] (join .left (c, a, k) near far)) t₁ := hholds₁
  obtain ⟨t₂, hset, hholds₂⟩ := htop.setColor .black
  rw [paint_join] at hbalanced
  have hpainted : entries (join .left (.black, a, k) near far) =
      entries (join .left (c, a, k) near far) := entries_join_congr _ rfl rfl rfl
  refine ⟨t₂, _, hloop.bind (returns_const ?_), hholds₂, hbalanced,
    rootColor_join .., hpainted.trans hentries⟩
  rw [hroot, hset]

/-! ### The descent -/

/-- The keys ascend in order. -/
def Sorted (tree : Tree) : Prop := (entries tree).Pairwise fun e e' ↦ e.2 ≤ e'.2

/-- A hole where a node with the key can be put behind the nodes with the same key. -/
structure Fits (key : ℤ) (ctx : Path) : Prop where
  before : ∀ v ∈ Lib.before ctx, v.2.2 ≤ key
  after : ∀ v ∈ Lib.after ctx, key < v.2.2
  head : ∀ f ctx', ctx = f :: ctx' → (f.side = .left ↔ key < f.value.2.2)

theorem fits_top (key : ℤ) : Fits key [] where
  before _ hv := absurd hv List.not_mem_nil
  after _ hv := absurd hv List.not_mem_nil
  head _ _ heq := absurd heq.symm (List.cons_ne_nil _ _)

/-- A key keeps the order in a hole where it fits. -/
theorem Fits.pairwise {key : ℤ} (hfits : Fits key ctx) {a : ℕ}
    (hsorted : ((Lib.before ctx).map Prod.snd ++ (Lib.after ctx).map Prod.snd).Pairwise
      fun e e' : ℕ × ℤ ↦ e.2 ≤ e'.2) :
    ((Lib.before ctx).map Prod.snd ++ (a, key) :: (Lib.after ctx).map Prod.snd).Pairwise
      fun e e' : ℕ × ℤ ↦ e.2 ≤ e'.2 := by
  rw [List.pairwise_append] at hsorted ⊢
  obtain ⟨hbefore, hafter, hacross⟩ := hsorted
  refine ⟨hbefore, List.pairwise_cons.mpr ⟨fun e he ↦ ?_, hafter⟩, fun e he e' he' ↦ ?_⟩
  · obtain ⟨v, hv, rfl⟩ := List.mem_map.mp he
    exact Int.le_of_lt (hfits.after v hv)
  · rcases List.mem_cons.mp he' with rfl | he'
    · obtain ⟨v, hv, rfl⟩ := List.mem_map.mp he
      exact hfits.before v hv
    · exact hacross e he e' he'

theorem Sorted.node {c : Color} {a : ℕ} {k : ℤ} {left right : Tree}
    (hsorted : Sorted (plug ctx (node (c, a, k) left right))) :
    (∀ v ∈ inorder left, v.2.2 ≤ k) ∧ ∀ v ∈ inorder right, k ≤ v.2.2 := by
  rw [Sorted, entries_plug, List.pairwise_append, List.pairwise_append] at hsorted
  have hentries := hsorted.1.2.1
  simp only [entries, inorder_node, List.map_append, List.map_cons, List.pairwise_append,
    List.pairwise_cons, List.mem_map, List.mem_cons] at hentries
  refine ⟨fun v hv ↦ ?_, fun v hv ↦ ?_⟩
  · exact hentries.2.2 _ ⟨v, hv, rfl⟩ _ (Or.inl rfl)
  · exact hentries.2.1.1 _ ⟨v, hv, rfl⟩

/-- A smaller key goes on to the left. -/
theorem Fits.left {key : ℤ} {c : Color} {a : ℕ} {k : ℤ} {right : Tree} (hfits : Fits key ctx)
    (hless : key < k) (habove : ∀ v ∈ inorder right, k ≤ v.2.2) :
    Fits key (⟨.left, (c, a, k), right⟩ :: ctx) where
  before := hfits.before
  after v hv := by
    rcases List.mem_append.mp hv with hv | hv
    · rcases List.mem_cons.mp hv with rfl | hv
      · exact hless
      · exact Int.lt_of_lt_of_le hless (habove v hv)
    · exact hfits.after v hv
  head f ctx' heq := by
    obtain ⟨rfl, rfl⟩ := List.cons.inj heq
    exact iff_of_true rfl hless

/-- Another key goes on to the right. -/
theorem Fits.right {key : ℤ} {c : Color} {a : ℕ} {k : ℤ} {left : Tree} (hfits : Fits key ctx)
    (hless : ¬key < k) (hbelow : ∀ v ∈ inorder left, v.2.2 ≤ k) :
    Fits key (⟨.right, (c, a, k), left⟩ :: ctx) where
  before v hv := by
    rcases List.mem_append.mp hv with hv | hv
    · rcases List.mem_append.mp hv with hv | hv
      · exact hfits.before v hv
      · exact Int.le_trans (hbelow v hv) (Int.not_lt.mp hless)
    · rw [List.mem_singleton.mp hv]
      exact Int.not_lt.mp hless
  after := hfits.after
  head f ctx' heq := by
    obtain ⟨rfl, rfl⟩ := List.cons.inj heq
    exact iff_of_false (by simp) hless

/-- The descent ends at a hole where the key fits. -/
theorem descend_loop {tree : Tree} {key : ℤ} (hholds : Holds others nil (plug ctx tree) t)
    (hsorted : Sorted (plug ctx tree)) (hfits : Fits key ctx) :
    ∃ ctx', plug ctx' .nil = plug ctx tree ∧ Fits key ctx' ∧
      Returns (fun fuel ↦ whileLoop (t.descendBody key) fuel (ptr nil tree, parentOf nil ctx))
        (parentOf nil ctx') := by
  induction tree generalizing ctx with
  | nil => exact ⟨ctx, rfl, hfits, returns_leave (if_pos hholds.nil_eq.symm)⟩
  | node v left right ihLeft ihRight =>
    obtain ⟨c, a, k⟩ := v
    obtain ⟨hbelow, habove⟩ := hsorted.node
    have hroot : Holds others nil (plug ctx (join .left (c, a, k) left right)) t := hholds
    have hright : t.child .right a = some (ptr nil right) := hroot.root_far
    by_cases hless : key < k
    · obtain ⟨ctx', hplug, hfits', hreturns⟩ :=
        ihLeft hroot.down hsorted (hfits.left hless habove)
      refine ⟨ctx', hplug, hfits', returns_continue ?_ hreturns⟩
      simp only [RbTree.descendBody, ptr, hroot.nil_eq, if_neg hroot.root_ne_nil, hroot.root_key,
        Option.bind_eq_bind, Option.bind_some, if_pos hless, hroot.root_near, Option.pure_def,
        parentOf_cons]
    · obtain ⟨ctx', hplug, hfits', hreturns⟩ :=
        ihRight hroot.down.swap hsorted (hfits.right hless hbelow)
      refine ⟨ctx', hplug, hfits', returns_continue ?_ hreturns⟩
      simp only [RbTree.descendBody, ptr, hroot.nil_eq, if_neg hroot.root_ne_nil, hroot.root_key,
        Option.bind_eq_bind, Option.bind_some, if_neg hless, hright, Option.pure_def, parentOf_cons]

/-! ### Insertion -/

/-- The tree next to a new cell. -/
theorem Holds.newNode {tree : Tree} {new : ℕ} (hholds : Holds others nil tree t) (key : ℤ)
    (hnew : t.nodes new = none) :
    Holds (others.put new ⟨.red, key, nil, nil, nil⟩) nil tree (t.newNode key new) := by
  have hne : ∀ b ∈ addresses tree, b ≠ new := by
    rintro b hb rfl
    exact hholds.rep.allocated hb hnew
  refine ⟨hholds.nil_eq, hholds.root, hholds.rep.frame fun b hb ↦ Store.put_of_ne _ (hne b hb) _, hholds.nodup,
    hholds.nil, fun b hb ↦ ?_⟩
  by_cases hbnew : b = new
  · rw [hbnew, Store.put_self, RbTree.newNode, hholds.nil_eq]
    exact Store.put_self ..
  · rw [Store.put_of_ne _ hbnew]
    exact (Store.put_of_ne _ hbnew _).trans (hholds.outside b hb)

/-- The pointer to a new node in the hole where its key fits. -/
theorem Frames.link {nil hole new : ℕ} {key : ℤ} (hframes : Frames t.nodes nil hole ctx)
    (htnil : t.nil = nil) (hroot : t.root = rootOf ctx hole) (hfits : Fits key ctx)
    (houter : (outer ctx).Nodup) (hnil : nil ∉ outer ctx) :
    ∃ t', t.link (parentOf nil ctx) new key = some t' ∧ t'.nil = nil ∧ t'.root = rootOf ctx new ∧
      Frames t'.nodes nil new ctx ∧ ∀ b ∉ outer ctx, t'.nodes b = t.nodes b := by
  cases ctx with
  | nil =>
    exact ⟨{ t with root := new }, if_pos htnil.symm, htnil, rfl, trivial, fun _ _ ↦ rfl⟩
  | cons f ctx =>
    obtain ⟨t', hset, hnil', hroot', hframes', hsame⟩ := hframes.setHole houter new
    have hside := hfits.head f ctx rfl
    obtain ⟨s, ⟨c, a, k⟩, sibling⟩ := f
    have hne : a ≠ t.nil := by
      rintro rfl
      exact hnil (htnil ▸ List.mem_cons_self)
    have hkey : t.key a = some k := by rw [key_eq hframes.1, make_key]
    refine ⟨t', ?_, hnil'.trans htnil, hroot'.trans hroot, hframes', hsame⟩
    rw [parentOf_cons, RbTree.link, if_neg hne, hkey]
    simp only [Option.bind_eq_bind, Option.bind_some]
    by_cases hless : key < k
    · rw [if_pos hless, ← hside.mpr hless]
      exact hset
    · rw [if_neg hless]
      cases s with
      | left => exact absurd (hside.mp rfl) hless
      | right => exact hset

/-- Linking a new node to the hole where its key fits. -/
theorem Holds.link {new : ℕ} {key : ℤ} (hholds : Holds others nil (plug ctx .nil) t)
    (hfits : Fits key ctx) (hnew : new ∉ nil :: outer ctx)
    (hcell : t.nodes new = some (Node.make .left .red key parent nil nil)) :
    ∃ t₁ t', t.setParent new (parentOf nil ctx) = some t₁ ∧
      t₁.link (parentOf nil ctx) new key = some t' ∧
      Holds others nil (plug ctx (join .left (.red, new, key) .nil .nil)) t' := by
  rw [List.mem_cons, not_or] at hnew
  obtain ⟨hnodup, hnil⟩ := hholds.distinct
  rw [addresses_nil, List.nil_append] at hnodup hnil
  obtain ⟨t₁, hset, hwrites⟩ := setParent_writes hcell (parentOf nil ctx)
  have hframes : Frames t₁.nodes nil nil ctx := by
    refine (rep_plug.mp hholds.rep).1.frame fun b hb ↦ hwrites.same b ?_
    exact ne_of_mem_of_not_mem hb hnew.2
  have hroot : t₁.root = rootOf ctx nil := by
    rw [hwrites.root, hholds.root, ptr_plug, ptr_nil]
  obtain ⟨t', hlink, hnil', hroot', hframes', hsame⟩ :=
    hframes.link (hwrites.nil.trans hholds.nil_eq) hroot hfits hnodup hnil
  have hperm := (perm_addresses_plug ctx (join .left (.red, new, key) .nil .nil))
  have hold : (addresses (plug ctx .nil)).Perm (outer ctx) := perm_addresses_plug ctx .nil
  refine ⟨t₁, t', hset, hlink, hnil', ?_, ?_, ?_, ?_, fun b hb ↦ ?_⟩
  · rw [hroot', ptr_plug, ptr_join]
  · refine rep_plug.mpr ⟨hframes', rep_join.mpr ⟨?_, trivial, trivial⟩⟩
    rw [hsame new hnew.2, hwrites.cell]
    rfl
  · exact hperm.nodup_iff.mpr (List.nodup_cons.mpr ⟨hnew.2, hnodup⟩)
  · rw [hperm.mem_iff, List.mem_append]
    rintro (hmem | hmem)
    · exact hnew.1 (List.mem_singleton.mp hmem).symm
    · exact hnil hmem
  · rw [hperm.mem_iff, List.mem_append, not_or] at hb
    have hne : b ≠ new := fun heq ↦ hb.1 (List.mem_singleton.mpr heq)
    rw [hsame b hb.2, hwrites.same b hne]
    exact hholds.outside b fun hmem ↦ hb.2 (hold.mem_iff.mp hmem)

/-- `rbtree_insert` puts the key behind those that are not greater, in a balanced tree. -/
theorem rbtreeInsert_returns {tree : Tree} {new : ℕ} (key : ℤ) (hholds : Holds others nil tree t)
    (hsentinel : Sentinel others nil parent) (hbalanced : Balanced tree h)
    (hblack : rootColor tree = .black) (hsorted : Sorted tree) (hnew : t.nodes new = none) :
    ∃ t' tree', Returns (fun fuel ↦ t.rbtreeInsert fuel key new) (new, t') ∧
      Holds (others.put new ⟨.red, key, nil, nil, nil⟩) nil tree' t' ∧
      (∃ h', Balanced tree' h') ∧ rootColor tree' = .black ∧ Sorted tree' ∧
      ∃ left right, entries tree = left ++ right ∧
        entries tree' = left ++ (new, key) :: right := by
  have hholds₀ := hholds.newNode key hnew
  have htop : Holds (others.put new ⟨.red, key, nil, nil, nil⟩) nil (plug [] tree)
    (t.newNode key new) := hholds₀
  obtain ⟨ctx, hplug, hfits, hdescend⟩ := descend_loop htop hsorted (fits_top key)
  rw [plug_nil] at hplug
  obtain ⟨k, hsentinelCell⟩ := hholds.sentinel hsentinel
  have hnewNil : new ≠ nil := by
    rintro rfl
    rw [hsentinelCell] at hnew
    exact absurd hnew (Option.some_ne_none _)
  have hmem : ∀ b, b ∈ addresses tree ↔ b ∈ outer ctx := by
    intro b
    rw [← hplug]
    exact (perm_addresses_plug ctx .nil).mem_iff
  have hnewOuter : new ∉ nil :: outer ctx := by
    rw [List.mem_cons, not_or]
    exact ⟨hnewNil, fun hnewMem ↦ hholds.rep.allocated ((hmem new).mpr hnewMem) hnew⟩
  have hcell : (t.newNode key new).nodes new = some (Node.make .left .red key nil nil nil) := by
    rw [RbTree.newNode, hholds.nil_eq]
    exact Store.put_self ..
  obtain ⟨t₁, t₂, hset, hlink, hholds₂⟩ := (hplug ▸ hholds₀).link hfits hnewOuter hcell
  have hsentinel₂ : Sentinel (others.put new ⟨.red, key, nil, nil, nil⟩) nil parent := by
    obtain ⟨k, hk⟩ := hsentinel
    refine ⟨k, ?_⟩
    exact (Store.put_of_ne _ hnewNil.symm _).trans hk
  obtain ⟨h₀, haccepts, hzero⟩ := exists_accepts (hplug ▸ hbalanced) (hplug ▸ hblack)
  have hleaf : Balanced (join .left (.red, new, key) .nil .nil) h₀ :=
    balanced_red.mpr ⟨rfl, rfl, hzero, hzero⟩
  obtain ⟨t', tree', hfixup, hholds', hbalanced', hblack', hentries⟩ :=
    rbtreeFixup_returns hsentinel₂ hholds₂ haccepts hleaf
  have hold : entries tree = (before ctx).map Prod.snd ++ (after ctx).map Prod.snd := by
    rw [← hplug, entries_plug, entries_nil, List.append_nil]
  have hnewEntries : entries tree' =
      (before ctx).map Prod.snd ++ (new, key) :: (after ctx).map Prod.snd := by
    rw [hentries, entries_plug, List.append_assoc]
    rfl
  refine ⟨t', tree', ?_, hholds', hbalanced', hblack', ?_, _, _, hold,
    hnewEntries⟩
  · have hstart : ((t.newNode key new).root, (t.newNode key new).nil) =
        (ptr nil tree, parentOf nil []) := by
      rw [hholds₀.root, hholds₀.nil_eq]
      rfl
    rw [← hstart] at hdescend
    unfold RbTree.rbtreeInsert
    refine hdescend.bind ?_
    simp only [hset, hlink, Option.bind_eq_bind, Option.bind_some]
    exact hfixup.bind (returns_const rfl)
  · rw [Sorted, hnewEntries]
    rw [Sorted, hold] at hsorted
    exact hfits.pairwise hsorted

end Jungle.RedBlack
