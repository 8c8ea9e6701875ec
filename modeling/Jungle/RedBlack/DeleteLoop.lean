import Jungle.RedBlack.WrongSibling

/-!
# The loop of the fix-up

The loop of `rbtree_delete_fixup` climbs while the sibling of `x` and its children are black. What it
meets first decides the outcome: the tree comes out balanced, or it is spoiled by the wrong sibling
(`fixupFails`).
-/

set_option autoImplicit false
set_option relaxedAutoImplicit false

namespace Jungle.RedBlack

open BinaryTree Jungle.Lib

variable {others : Store Node} {t : RbTree} {ctx : Path} {s : Side} {c : Color}
  {nil p w a parent h : ℕ} {kp kw ka : ℤ} {X N F A B : Tree}

/-- Whether the children of the root are black. -/
def childrenBlack : Tree → Bool
  | .nil => true
  | .node _ left right => rootColor left = .black ∧ rootColor right = .black

/-- Whether the loop of `rbtree_delete_fixup` meets a red sibling on the right of `x`, given the path
to `x` and its color. -/
def meetsRedRight : Path → Color → Bool
  | [], _ => false
  | f :: ctx, c =>
    if c = .red then false
    else if rootColor f.sibling = .red then f.side = .left
    else childrenBlack f.sibling && meetsRedRight ctx f.value.1

/-- Whether the loop spoils the tree: it meets a red sibling on the right of `x` from which it does not
recover. -/
def fixupFails : Path → Color → Bool
  | [], _ => false
  | f :: ctx, c =>
    if c = .red then false
    else if rootColor f.sibling = .red then f.side = .left && !recovers f.sibling ctx
    else childrenBlack f.sibling && fixupFails ctx f.value.1

/-- A loop that spoils the tree meets a red sibling on the right. -/
theorem meetsRedRight_of_fixupFails (hfails : fixupFails ctx c) : meetsRedRight ctx c := by
  induction ctx generalizing c with
  | nil => exact hfails
  | cons f ctx ih =>
    rw [fixupFails] at hfails
    rw [meetsRedRight]
    split_ifs at hfails ⊢ with hred hsibling
    · exact (Bool.and_eq_true_iff.mp hfails).1
    · obtain ⟨hchildren, hrest⟩ := Bool.and_eq_true_iff.mp hfails
      exact Bool.and_eq_true_iff.mpr ⟨hchildren, ih hrest⟩

theorem childrenBlack_join {v : Color × ℕ × ℤ} :
    childrenBlack (join s v N F) = true ↔ rootColor N = .black ∧ rootColor F = .black := by
  cases s
  · exact decide_eq_true_iff
  · exact decide_eq_true_iff.trans and_comm

/-- A red node ends the loop, so it does not fail there. -/
theorem fixupFails_red : fixupFails ctx .red = false := by
  cases ctx with
  | nil => rfl
  | cons f ctx => exact if_pos rfl

/-- The loop climbs from a black node with a black sibling that has black children. -/
theorem fixupFails_black {u v : ℕ × ℤ} : fixupFails (⟨s, (c, u), join s (.black, v) N F⟩ :: ctx) .black =
    (childrenBlack (join s (.black, v) N F) && fixupFails ctx c) := by
  rw [fixupFails, if_neg (by decide), if_neg (by simp)]

/-- The loop ends, and whether it spoils the tree is known from the path. -/
theorem deleteFixup_loop (hsentinel : Sentinel others nil parent)
    (hx : X = .nil → parent = parentOf nil ctx) (hholds : Holds others nil (plug ctx X) t)
    (haccepts : Accepts ctx (h + 1) .black) (hX : Balanced X h) :
    (fixupFails ctx (rootColor X) = false →
      Ends others nil (entries (plug ctx X)) (t, ptr nil X)) ∧
    (fixupFails ctx (rootColor X) = true →
      Spoils others nil (entries (plug ctx X)) (t, ptr nil X)) := by
  induction ctx generalizing t X h with
  | nil =>
    have hends := ends_root hholds hX.exists_paint_black
    rw [hholds.root] at hends
    exact ⟨fun _ ↦ hends, fun hfails ↦ absurd hfails Bool.false_ne_true⟩
  | cons f ctx ih =>
    obtain ⟨s, ⟨c, p, kp⟩, W⟩ := f
    by_cases hred : rootColor X = .red
    · rw [hred, fixupFails_red]
      exact ⟨fun _ ↦ ends_red hsentinel hholds hred haccepts (hX.paint_black hred),
        fun hfails ↦ absurd hfails Bool.false_ne_true⟩
    have hXblack := Color.eq_black_of_ne hred
    obtain ⟨hW, hWblack⟩ := haccepts.sibling
    change Balanced W (h + 1) at hW
    have hWnil : W ≠ .nil := by
      rintro rfl
      exact absurd (balanced_nil.mp hW) (Nat.succ_ne_zero h)
    have hround := deleteFixupBody_eq hsentinel hx hholds hXblack hWnil
    rw [hXblack]
    by_cases hWred : rootColor W = .red
    · obtain rfl : c = .black := by
        by_contra hc
        rw [hWblack (Color.eq_red_of_ne hc)] at hWred
        exact absurd hWred (by decide)
      rw [fixupFails, if_neg (by decide), if_pos hWred]
      cases s with
      | left =>
        obtain ⟨next, hside, hends, hspoils⟩ := redRight_round hsentinel hx hholds haccepts hX hWred
        have hstep : RbTree.deleteFixupBody (t, ptr nil X) = some (.inl next) := by
          rw [hround, hside, Option.map_some]
        rw [decide_eq_true rfl, Bool.true_and, Bool.not_eq_false', Bool.not_eq_true']
        exact ⟨fun hrecovers ↦ (hends hrecovers).round hstep,
          fun hrecovers ↦ (hspoils hrecovers).round hstep⟩
      | right =>
        rw [decide_eq_false (by simp), Bool.false_and]
        refine ⟨fun _ ↦ ?_, fun hfails ↦ absurd hfails Bool.false_ne_true⟩
        obtain ⟨⟨w, kw⟩, N, F, rfl, hNblack, hFblack, hN, hF⟩ := hW.red_join hWred .right
        obtain ⟨⟨a, ka⟩, A, B, rfl, hA, hB⟩ := hN.black_join hNblack .right
        obtain ⟨t₁, hsettle, h₁⟩ := settleSibling_red hsentinel hx hholds
        have haccepts₁ : Accepts (⟨.right, (.red, p, kp), join .right (.black, a, ka) A B⟩ ::
            ⟨.right, (.black, w, kw), F⟩ :: ctx) (h + 1) .black :=
          ⟨rfl, hNblack, hN, hF, haccepts.2⟩
        obtain ⟨next, hbalance, hends⟩ :=
          ends_balance hsentinel hx h₁ haccepts₁ hX fun hc ↦ absurd hc (by simp)
        have hentries : entries (plug (⟨.right, (.red, p, kp), join .right (.black, a, ka) A B⟩ ::
            ⟨.right, (.black, w, kw), F⟩ :: ctx) X) =
              entries (plug (⟨.right, (.black, p, kp), join .right (.red, w, kw)
                (join .right (.black, a, ka) A B) F⟩ :: ctx) X) :=
          entries_plug_congr ctx ((entries_rotate ..).trans
            (entries_join_congr _ rfl rfl (entries_join_congr _ rfl rfl rfl)))
        rw [← hentries]
        refine hends.round (hround.trans ?_)
        simp only [RbTree.deleteFixupSide, hsettle, hbalance, Option.bind_eq_bind, Option.bind_some,
          Option.map_some]
    · obtain ⟨⟨w, kw⟩, N, F, rfl, hN, hF⟩ := hW.black_join (Color.eq_black_of_ne hWred) s
      have hsettle := settleSibling_black hsentinel hx hholds
      have hclimb : c = .black → rootColor N = .black → rootColor F = .black → ∀ t',
          Holds others nil (plug ctx (join s (c, p, kp) X (join s (.red, w, kw) N F))) t' →
            (fixupFails ctx c = false →
              Ends others nil (entries (plug ctx (join s (c, p, kp) X (join s (.red, w, kw) N F))))
                (t', p)) ∧
            (fixupFails ctx c = true →
              Spoils others nil (entries (plug ctx (join s (c, p, kp) X (join s (.red, w, kw) N F))))
                (t', p)) := by
        rintro rfl hNblack hFblack t' hholds'
        have hnext := ih (fun hP ↦ absurd hP (join_ne_nil _ _ _ _)) hholds' haccepts.2
          (balanced_black.mpr ⟨hX, balanced_red.mpr ⟨hNblack, hFblack, hN, hF⟩⟩)
        rwa [rootColor_join, ptr_join] at hnext
      rw [fixupFails_black]
      refine ⟨fun hfails ↦ ?_, fun hfails ↦ ?_⟩
      · obtain ⟨next, hbalance, hends⟩ := ends_balance hsentinel hx hholds haccepts hX
          fun hc hNblack hFblack t' hholds' ↦ (hclimb hc hNblack hFblack t' hholds').1 <| by
            rwa [childrenBlack_join.mpr ⟨hNblack, hFblack⟩, Bool.true_and] at hfails
        refine hends.round (hround.trans ?_)
        simp only [RbTree.deleteFixupSide, hsettle, hbalance, Option.bind_eq_bind, Option.bind_some,
          Option.map_some]
      · obtain ⟨hchildren, hrest⟩ := Bool.and_eq_true_iff.mp hfails
        obtain ⟨hNblack, hFblack⟩ := childrenBlack_join.mp hchildren
        have hc : c = .black := Color.eq_black_of_ne fun hc ↦ by
          rw [hc, fixupFails_red] at hrest
          exact Bool.false_ne_true hrest
        obtain ⟨t', hbalance, hholds'⟩ :=
          balanceSibling_black (p := p) hsentinel hx hNblack hFblack hholds
        have hspoils := (hclimb hc hNblack hFblack t' hholds').2 hrest
        have hentries : entries (plug ctx (join s (c, p, kp) X (join s (.red, w, kw) N F))) =
            entries (plug (⟨s, (c, p, kp), join s (.black, w, kw) N F⟩ :: ctx) X) :=
          entries_plug_congr _ (entries_join_congr _ rfl rfl (entries_join_congr _ rfl rfl rfl))
        rw [← hentries]
        refine hspoils.round (hround.trans ?_)
        simp only [RbTree.deleteFixupSide, hsettle, hbalance, Option.bind_eq_bind, Option.bind_some,
          Option.map_some]

/-- `rbtree_delete_fixup` balances the tree, if it does not fail. -/
theorem rbtreeDeleteFixup_returns (hsentinel : Sentinel others nil parent)
    (hx : X = .nil → parent = parentOf nil ctx) (hholds : Holds others nil (plug ctx X) t)
    (haccepts : Accepts ctx (h + 1) .black) (hX : Balanced X h)
    (hfails : fixupFails ctx (rootColor X) = false) :
    ∃ t' T, Returns (fun fuel ↦ t.rbtreeDeleteFixup fuel (ptr nil X)) t' ∧ Holds others nil T t' ∧
      (∃ h', Balanced T h' ∧ rootColor T = .black) ∧ entries T = entries (plug ctx X) := by
  obtain ⟨t₁, ctx', X', hloop, hholds₁, hbalanced, hentries⟩ :=
    (deleteFixup_loop hsentinel hx hholds haccepts hX).1 hfails
  obtain ⟨t', hset, hholds'⟩ := hholds₁.setColor_ptr hsentinel
  exact ⟨t', _, hloop.bind (returns_const hset), hholds', hbalanced,
    (entries_plug_congr _ (entries_paint ..)).trans hentries⟩

/-- `rbtree_delete_fixup` spoils the tree, if it fails. -/
theorem rbtreeDeleteFixup_spoils (hsentinel : Sentinel others nil parent)
    (hx : X = .nil → parent = parentOf nil ctx) (hholds : Holds others nil (plug ctx X) t)
    (haccepts : Accepts ctx (h + 1) .black) (hX : Balanced X h)
    (hfails : fixupFails ctx (rootColor X) = true) :
    ∃ t', Returns (fun fuel ↦ t.rbtreeDeleteFixup fuel (ptr nil X)) t' ∧
      Spoiled others nil (entries (plug ctx X)) t' := by
  obtain ⟨t₁, x, t', hloop, hset, hspoiled⟩ :=
    (deleteFixup_loop hsentinel hx hholds haccepts hX).2 hfails
  exact ⟨t', hloop.bind (returns_const hset), hspoiled⟩

end Jungle.RedBlack
