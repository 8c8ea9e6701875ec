import Jungle.RedBlack.Steps

/-!
# The fix-up after a deletion

In each round the tree in the hole is one black node short (`Accepts` wants the height `h + 1` of a
tree of height `h`). A round without a red sibling on the right moves the hole up or ends the loop
with a balanced tree.
-/

set_option autoImplicit false
set_option relaxedAutoImplicit false

namespace Jungle.RedBlack

open BinaryTree Jungle.Lib

variable {others : Store Node} {t : RbTree} {ctx : Path} {s : Side} {c : Color}
  {nil p w a parent h : ℕ} {kp kw ka : ℤ} {X N F A B : Tree}

/-- The parent of the tree in the hole, also where that is the sentinel. -/
theorem Holds.parent_ptr {f : Frame (Color × ℕ × ℤ)}
    (hholds : Holds others nil (plug (f :: ctx) X) t) (hsentinel : Sentinel others nil parent)
    (hx : X = .nil → parent = f.value.2.1) : t.parent (ptr nil X) = some f.value.2.1 := by
  by_cases hX : X = .nil
  · obtain ⟨k, hcell⟩ := hholds.sentinel hsentinel
    rw [hX, ptr_nil, parent_eq hcell, hx hX]
  · obtain ⟨⟨c, a, k⟩, near, far, rfl⟩ := exists_join .left hX
    rw [ptr_join, hholds.root_parent, parentOf_cons]

/-! ### The cases of a round -/

section Cases

variable (hsentinel : Sentinel others nil parent) (hx : X = .nil → parent = p)

include hsentinel hx

/-- The fourth case. -/
theorem raiseSibling_spec {d : Color}
    (hholds : Holds others nil (plug (⟨s, (c, p, kp), join s (d, w, kw) N F⟩ :: ctx) X) t) :
    ∃ t', RbTree.raiseSibling s t (ptr nil X) w = some (t', t'.root) ∧ Holds others nil
      (plug ctx (join s (c, w, kw) (join s (.black, p, kp) X N) (paint .black F))) t' := by
  obtain ⟨t₁, hset₁, h₁⟩ := hholds.swap.setColor c
  obtain ⟨t₂, hset₂, h₂⟩ := h₁.unswap.up.setColor .black
  obtain ⟨t₃, hset₃, h₃⟩ := h₂.down.swap.down.swap.setColor_ptr hsentinel
  obtain ⟨t₄, hset₄, h₄⟩ := h₃.unswap.up.unswap.up.rotate
  refine ⟨t₄, ?_, h₄⟩
  simp only [RbTree.raiseSibling, hholds.parent_ptr hsentinel hx, hholds.up.root_color, hset₁,
    h₁.unswap.parent_ptr hsentinel hx, hset₂, h₂.down.swap.root_far, hset₃,
    h₃.unswap.up.unswap.parent_ptr hsentinel hx, hset₄, Option.bind_eq_bind, Option.bind_some,
    Option.pure_def]

omit hx in
/-- The third case, with a red near child and a black far one, wherever `w` is. -/
theorem turnSibling_rotates (hF : rootColor F = .black)
    (hw : Holds others nil (plug ctx (join s (.black, w, kw) (join s (.red, a, ka) A B) F)) t)
    (x : ℕ) : ∃ t', Holds others nil
        (plug ctx (join s (.black, a, ka) A (join s (.red, w, kw) B F))) t' ∧
      RbTree.turnSibling s t x w =
        (t'.parent x).bind fun q ↦ (t'.child s.other q).bind fun w' ↦ some (t', w') := by
  obtain ⟨t₁, hset₁, h₁⟩ := hw.down.setColor .black
  obtain ⟨t₂, hset₂, h₂⟩ := h₁.up.setColor .red
  have hrotate : Holds others nil (plug ctx (join s.other (.red, w, kw)
      F (join s.other (.black, a, ka) B A))) t₂ := by
    rw [join_other, join_other]
    exact h₂
  obtain ⟨t₃, hset₃, h₃⟩ := hrotate.rotate
  rw [join_other, join_other] at h₃
  refine ⟨t₃, h₃, ?_⟩
  simp only [RbTree.turnSibling, hw.root_far, hw.down.swap.color_ptr hsentinel, hF, hw.root_near,
    ptr_join, hset₁, hset₂, hset₃, Option.bind_eq_bind, Option.bind_some, if_true, Option.pure_def]

/-- The third case at the sibling of `x`. -/
theorem turnSibling_spec (hF : rootColor F = .black)
    (hholds : Holds others nil (plug (⟨s, (c, p, kp), join s (.black, w, kw)
      (join s (.red, a, ka) A B) F⟩ :: ctx) X) t) :
    ∃ t', RbTree.turnSibling s t (ptr nil X) w = some (t', a) ∧ Holds others nil
      (plug (⟨s, (c, p, kp), join s (.black, a, ka) A (join s (.red, w, kw) B F)⟩ :: ctx) X) t' := by
  obtain ⟨t', h', hturn⟩ := turnSibling_rotates hsentinel hF hholds.swap (ptr nil X)
  refine ⟨t', ?_, h'.unswap⟩
  rw [hturn, h'.unswap.parent_ptr hsentinel hx, Option.bind_some, h'.unswap.up.root_far,
    Option.bind_some, ptr_join]

omit hx in
/-- The third case does not apply with a red far child. -/
theorem turnSibling_red (hF : rootColor F = .red)
    (hw : Holds others nil (plug ctx (join s (c, w, kw) N F)) t) (x : ℕ) :
    RbTree.turnSibling s t x w = some (t, w) := by
  simp only [RbTree.turnSibling, hw.root_far, hw.down.swap.color_ptr hsentinel, hF,
    Option.bind_eq_bind, Option.bind_some, reduceCtorEq, if_false, Option.pure_def]

/-- The first case does not apply with a black sibling. -/
theorem settleSibling_black
    (hholds : Holds others nil (plug (⟨s, (c, p, kp), join s (.black, w, kw) N F⟩ :: ctx) X) t) :
    RbTree.settleSibling s t (ptr nil X) = some (t, w) := by
  simp only [RbTree.settleSibling, hholds.parent_ptr hsentinel hx, hholds.up.root_far, ptr_join,
    hholds.swap.root_color, Option.bind_eq_bind, Option.bind_some, reduceCtorEq, if_false,
    Option.pure_def]

/-- The first case, up to the choice of the next sibling. -/
theorem settleSibling_rotates
    (hholds : Holds others nil (plug (⟨s, (c, p, kp), join s (.red, w, kw) N F⟩ :: ctx) X) t) :
    ∃ t', Holds others nil (plug (⟨s, (.red, p, kp), N⟩ :: ⟨s, (.black, w, kw), F⟩ :: ctx) X) t' ∧
      RbTree.settleSibling s t (ptr nil X) =
        (t'.nextSibling (ptr nil X) w s).bind fun w' ↦ some (t', w') := by
  obtain ⟨t₁, hset₁, h₁⟩ := hholds.swap.setColor .black
  obtain ⟨t₂, hset₂, h₂⟩ := h₁.unswap.up.setColor .red
  obtain ⟨t₃, hset₃, h₃⟩ := h₂.rotate
  refine ⟨t₃, h₃, ?_⟩
  simp only [RbTree.settleSibling, hholds.parent_ptr hsentinel hx, hholds.up.root_far, ptr_join,
    hholds.swap.root_color, hset₁, h₁.unswap.parent_ptr hsentinel hx, hset₂,
    h₂.down.parent_ptr hsentinel hx, hset₃, Option.bind_eq_bind, Option.bind_some, if_true,
    Option.pure_def]

/-- The first case on the right. -/
theorem settleSibling_red
    (hholds : Holds others nil (plug (⟨.right, (.black, p, kp), join .right (.red, w, kw)
      (join .right (.black, a, ka) A B) F⟩ :: ctx) X) t) :
    ∃ t', RbTree.settleSibling .right t (ptr nil X) = some (t', a) ∧ Holds others nil
      (plug (⟨.right, (.red, p, kp), join .right (.black, a, ka) A B⟩ ::
        ⟨.right, (.black, w, kw), F⟩ :: ctx) X) t' := by
  obtain ⟨t', h', hsettle⟩ := settleSibling_rotates hsentinel hx hholds
  have hleft : t'.child .left p = some a := by
    have hfar := h'.up.root_far
    rwa [ptr_join] at hfar
  refine ⟨t', ?_, h'⟩
  simp only [hsettle, RbTree.nextSibling, h'.parent_ptr hsentinel hx, hleft, Option.bind_eq_bind,
    Option.bind_some]

omit hx in
theorem bothBlack_eq
    (hw : Holds others nil (plug ctx (join s (c, w, kw) N F)) t) :
    t.bothBlack s w = some (decide (rootColor N = .black ∧ rootColor F = .black)) := by
  simp only [RbTree.bothBlack, hw.root_near, hw.down.color_ptr hsentinel, hw.root_far,
    hw.down.swap.color_ptr hsentinel, Option.bind_eq_bind, Option.bind_some, Option.pure_def]
  by_cases hN : rootColor N = .black
  · simp [hN]
  · simp [hN]

/-- A black sibling with black children becomes red. -/
theorem balanceSibling_black (hN : rootColor N = .black) (hF : rootColor F = .black)
    (hholds : Holds others nil (plug (⟨s, (c, p, kp), join s (.black, w, kw) N F⟩ :: ctx) X) t) :
    ∃ t', RbTree.balanceSibling s t (ptr nil X) w = some (t', p) ∧
      Holds others nil (plug ctx (join s (c, p, kp) X (join s (.red, w, kw) N F))) t' := by
  have hboth := bothBlack_eq hsentinel hholds.swap
  rw [decide_eq_true ⟨hN, hF⟩] at hboth
  obtain ⟨t₁, hset₁, h₁⟩ := hholds.swap.setColor .red
  refine ⟨t₁, ?_, h₁.unswap.up⟩
  simp only [RbTree.balanceSibling, hboth, hset₁, h₁.unswap.parent_ptr hsentinel hx,
    Option.bind_eq_bind, Option.bind_some, if_true, Option.pure_def]

/-- With a black sibling that has a red child, the round balances the tree. -/
theorem balanceSibling_red (hred : ¬(rootColor N = .black ∧ rootColor F = .black))
    (hX : Balanced X h)
    (haccepts : Accepts (⟨s, (c, p, kp), join s (.black, w, kw) N F⟩ :: ctx) (h + 1) .black)
    (hholds : Holds others nil (plug (⟨s, (c, p, kp), join s (.black, w, kw) N F⟩ :: ctx) X) t) :
    ∃ t' T, RbTree.balanceSibling s t (ptr nil X) w = some (t', t'.root) ∧ Holds others nil T t' ∧
      (∃ h', Balanced T h') ∧ rootColor T = .black ∧
      entries T = entries (plug (⟨s, (c, p, kp), join s (.black, w, kw) N F⟩ :: ctx) X) := by
  have hboth := bothBlack_eq hsentinel hholds.swap
  rw [decide_eq_false hred] at hboth
  obtain ⟨hN, hF⟩ := balanced_black.mp haccepts.sibling.1
  by_cases hFred : rootColor F = .red
  · obtain ⟨t', hraise, h'⟩ := raiseSibling_spec hsentinel hx hholds
    obtain ⟨h'', hbalanced, hroot⟩ := haccepts.rejoin s (w, kw)
      (balanced_black.mpr ⟨hX, hN⟩ : Balanced (join s (.black, p, kp) X N) (h + 1))
      (hF.paint_black hFred) fun _ ↦ ⟨rootColor_join .., rootColor_paint_black F⟩
    refine ⟨t', _, ?_, h', ⟨h'', hbalanced⟩, hroot, entries_plug_congr _ ?_⟩
    · simp only [RbTree.balanceSibling, hboth, turnSibling_red hsentinel hFred hholds.swap, hraise,
        Option.bind_eq_bind, Option.bind_some, Bool.false_eq_true, if_false]
    · calc entries (join s (c, w, kw) (join s (.black, p, kp) X N) (paint .black F))
        _ = entries (join s (c, w, kw) (join s (c, p, kp) X N) F) :=
          entries_join_congr _ rfl (entries_join_congr _ rfl rfl rfl) (entries_paint ..)
        _ = entries (join s (c, p, kp) X (join s (c, w, kw) N F)) := entries_rotate ..
        _ = entries (join s (c, p, kp) X (join s (.black, w, kw) N F)) :=
          entries_join_congr _ rfl rfl (entries_join_congr _ rfl rfl rfl)
  · have hFblack := Color.eq_black_of_ne hFred
    have hNred : rootColor N = .red := Color.eq_red_of_ne fun hblack ↦ hred ⟨hblack, hFblack⟩
    obtain ⟨⟨a, ka⟩, A, B, rfl, -, -, hA, hB⟩ := hN.red_join hNred s
    obtain ⟨t₁, hturn, h₁⟩ := turnSibling_spec hsentinel hx hFblack hholds
    obtain ⟨t', hraise, h'⟩ := raiseSibling_spec hsentinel hx h₁
    rw [paint_join] at h'
    obtain ⟨h'', hbalanced, hroot⟩ := haccepts.rejoin s (a, ka)
      (balanced_black.mpr ⟨hX, hA⟩ : Balanced (join s (.black, p, kp) X A) (h + 1))
      (balanced_black.mpr ⟨hB, hF⟩ : Balanced (join s (.black, w, kw) B F) (h + 1))
      fun _ ↦ ⟨rootColor_join .., rootColor_join ..⟩
    refine ⟨t', _, ?_, h', ⟨h'', hbalanced⟩, hroot, entries_plug_congr _ ?_⟩
    · simp only [RbTree.balanceSibling, hboth, hturn, hraise, Option.bind_eq_bind, Option.bind_some,
        Bool.false_eq_true, if_false]
    · exact entries_double_rotate s (by rfl) (by rfl) (by rfl) X A B F

end Cases

/-! ### How the loop ends -/

/-- A round chooses the side of `x`. -/
theorem deleteFixupBody_eq {f : Frame (Color × ℕ × ℤ)} (hsentinel : Sentinel others nil parent)
    (hx : X = .nil → parent = f.value.2.1) (hholds : Holds others nil (plug (f :: ctx) X) t)
    (hX : rootColor X = .black) (hsibling : f.sibling ≠ .nil) :
    RbTree.deleteFixupBody (t, ptr nil X) =
      (RbTree.deleteFixupSide f.side t (ptr nil X)).map .inl := by
  have hparent := hholds.parent_ptr hsentinel hx
  have hne := hholds.ptr_ne_root
  have hcolor := hholds.color_ptr hsentinel
  obtain ⟨s, ⟨c, p, kp⟩, W⟩ := f
  cases s with
  | left =>
    simp only [RbTree.deleteFixupBody, if_neg hne, hcolor, hX, hparent, hholds.up.root_near,
      Option.bind_eq_bind, Option.bind_some, if_true]
  | right =>
    have hchild : t.child .left p = some (ptr nil W) := hholds.up.root_far
    have hapart : ptr nil X ≠ ptr nil W := (hholds.swap.up.ptr_ne hsibling).symm
    simp only [RbTree.deleteFixupBody, if_neg hne, hcolor, hX, hparent, hchild, if_neg hapart,
      Option.bind_eq_bind, Option.bind_some, if_true]

/-- The loop ends at a node with which the tree is balanced once the node is black. -/
def Ends (others : Store Node) (nil : ℕ) (sequence : List (ℕ × ℤ)) (start : RbTree × ℕ) : Prop :=
  ∃ t ctx X, Returns (fun fuel ↦ whileLoop RbTree.deleteFixupBody fuel start) (t, ptr nil X) ∧
    Holds others nil (plug ctx X) t ∧ (∃ h, Balanced (plug ctx (paint .black X)) h ∧
      rootColor (plug ctx (paint .black X)) = .black) ∧ entries (plug ctx X) = sequence

/-- The loop ends at the root. -/
theorem ends_root {tree : Tree} (hholds : Holds others nil tree t)
    (hbalanced : ∃ h, Balanced (paint .black tree) h) :
    Ends others nil (entries tree) (t, t.root) := by
  obtain ⟨h, hbalanced⟩ := hbalanced
  refine ⟨t, [], tree, ?_, hholds, ⟨h, hbalanced, rootColor_paint_black tree⟩, rfl⟩
  rw [hholds.root]
  exact returns_leave (if_pos hholds.root.symm)

/-- The loop ends at a red node. -/
theorem ends_red (hsentinel : Sentinel others nil parent) (hholds : Holds others nil (plug ctx X) t)
    (hred : rootColor X = .red) (haccepts : Accepts ctx h .black)
    (hbalanced : Balanced (paint .black X) h) :
    Ends others nil (entries (plug ctx X)) (t, ptr nil X) := by
  refine ⟨t, ctx, X, returns_leave ?_, hholds,
    haccepts.balanced (rootColor_paint_black X) hbalanced, rfl⟩
  by_cases hroot : ptr nil X = t.root
  · exact if_pos hroot
  · simp only [RbTree.deleteFixupBody, if_neg hroot, hholds.color_ptr hsentinel, hred,
      Option.bind_eq_bind, Option.bind_some, reduceCtorEq, if_false, Option.pure_def]

theorem Ends.round {start next : RbTree × ℕ} {sequence : List (ℕ × ℤ)}
    (h : Ends others nil sequence next)
    (hround : RbTree.deleteFixupBody start = some (.inl next)) : Ends others nil sequence start := by
  obtain ⟨t, ctx, X, hreturns, hrest⟩ := h
  exact ⟨t, ctx, X, returns_continue hround hreturns, hrest⟩

/-- The round after the first case, with a black sibling. -/
theorem ends_balance (hsentinel : Sentinel others nil parent) (hx : X = .nil → parent = p)
    (hholds : Holds others nil (plug (⟨s, (c, p, kp), join s (.black, w, kw) N F⟩ :: ctx) X) t)
    (haccepts : Accepts (⟨s, (c, p, kp), join s (.black, w, kw) N F⟩ :: ctx) (h + 1) .black)
    (hX : Balanced X h)
    (hnext : c = .black → rootColor N = .black → rootColor F = .black →
      ∀ t', Holds others nil (plug ctx (join s (c, p, kp) X (join s (.red, w, kw) N F))) t' →
        Ends others nil (entries (plug ctx (join s (c, p, kp) X (join s (.red, w, kw) N F))))
          (t', p)) :
    ∃ next, RbTree.balanceSibling s t (ptr nil X) w = some next ∧ Ends others nil
      (entries (plug (⟨s, (c, p, kp), join s (.black, w, kw) N F⟩ :: ctx) X)) next := by
  by_cases hboth : rootColor N = .black ∧ rootColor F = .black
  · obtain ⟨hN, hF⟩ := hboth
    obtain ⟨t', hbalance, hholds'⟩ := balanceSibling_black hsentinel hx hN hF hholds
    have hentries : entries (plug ctx (join s (c, p, kp) X (join s (.red, w, kw) N F))) =
        entries (plug (⟨s, (c, p, kp), join s (.black, w, kw) N F⟩ :: ctx) X) :=
      entries_plug_congr _ (entries_join_congr _ rfl rfl (entries_join_congr _ rfl rfl rfl))
    refine ⟨(t', p), hbalance, ?_⟩
    rw [← hentries]
    by_cases hc : c = .black
    · exact hnext hc hN hF t' hholds'
    · obtain rfl := Color.eq_red_of_ne hc
      obtain ⟨hheightN, hheightF⟩ := balanced_black.mp haccepts.sibling.1
      have hpaint : Balanced (paint .black (join s (.red, p, kp) X (join s (.red, w, kw) N F)))
          (h + 1) := by
        rw [paint_join]
        exact balanced_black.mpr ⟨hX, balanced_red.mpr ⟨hN, hF, hheightN, hheightF⟩⟩
      have hends := ends_red hsentinel hholds' (rootColor_join ..) haccepts.2.2.2.black hpaint
      rwa [ptr_join] at hends
  · obtain ⟨t', T, hbalance, hholds', ⟨h', hbalanced⟩, hroot, hentries⟩ :=
      balanceSibling_red hsentinel hx hboth hX haccepts hholds
    refine ⟨(t', t'.root), hbalance, ?_⟩
    rw [← hentries]
    exact ends_root hholds' ⟨h', (paint_eq_self hroot).symm ▸ hbalanced⟩

end Jungle.RedBlack
