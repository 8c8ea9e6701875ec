import Jungle.RedBlack.DeleteFixup

/-!
# The wrong sibling

Where `rbtree_delete_fixup` rotates a red sibling `w` on the right of `x` up, it goes on with the right
child of the parent of `w` and not with that of the parent of `x`. That is the sentinel if `w` became
the root, `w` itself if it became a right child, and the sibling of `w` if it became a left child. The
tree comes out balanced only in the last case, and only if a red near child of that sibling is turned
up and the sibling that `x` then gets has a red far child (`recovers`).
-/

set_option autoImplicit false
set_option relaxedAutoImplicit false

namespace Jungle.RedBlack

open BinaryTree Jungle.Lib

variable {others : Store Node} {t : RbTree} {ctx : Path} {cg cs : Color}
  {nil p w g l σ parent h : ℕ} {kp kw kg kl kσ : ℤ} {X N F G L R LL LR : Tree}

/-! ### Spoiled trees -/

/-- The state holds a tree that is not balanced, or its sentinel is not as it was. -/
def Spoiled (others : Store Node) (nil : ℕ) (sequence : List (ℕ × ℤ)) (t : RbTree) : Prop :=
  ∃ others' T, Holds others' nil T t ∧ entries T = sequence ∧
    (∀ a, a ≠ nil → others' a = others a) ∧
    ((∀ h, ¬Balanced T h) ∨ ∀ parent, ¬Sentinel others' nil parent)

/-- The loop ends at a node with which the tree is spoiled once the node is black. -/
def Spoils (others : Store Node) (nil : ℕ) (sequence : List (ℕ × ℤ)) (start : RbTree × ℕ) : Prop :=
  ∃ t x t', Returns (fun fuel ↦ whileLoop RbTree.deleteFixupBody fuel start) (t, x) ∧
    t.setColor x .black = some t' ∧ Spoiled others nil sequence t'

theorem Spoils.round {start next : RbTree × ℕ} {sequence : List (ℕ × ℤ)}
    (hspoils : Spoils others nil sequence next)
    (hround : RbTree.deleteFixupBody start = some (.inl next)) :
    Spoils others nil sequence start := by
  obtain ⟨t, x, t', hreturns, hrest⟩ := hspoils
  exact ⟨t, x, t', returns_continue hround hreturns, hrest⟩

/-- The loop ends at the root of a tree that is not balanced. -/
theorem spoils_root {tree : Tree} (hsentinel : Sentinel others nil parent)
    (hholds : Holds others nil tree t) (hbalanced : ∀ h, ¬Balanced (paint .black tree) h) :
    Spoils others nil (entries tree) (t, t.root) := by
  have htop : Holds others nil (plug [] tree) t := hholds
  obtain ⟨t', hset, hholds'⟩ := htop.setColor_ptr hsentinel
  rw [← hholds.root] at hset
  exact ⟨t, t.root, t', returns_leave (if_pos rfl), hset, others, _, hholds', entries_paint ..,
    fun _ _ ↦ rfl, Or.inl hbalanced⟩

/-- The loop ends at a red node. -/
theorem deleteFixupBody_red {x : ℕ} (hcolor : t.color x = some .red) :
    RbTree.deleteFixupBody (t, x) = some (.inr (t, x)) := by
  by_cases hroot : x = t.root
  · exact if_pos hroot
  · simp only [RbTree.deleteFixupBody, if_neg hroot, hcolor, Option.bind_eq_bind, Option.bind_some,
      reduceCtorEq, if_false, Option.pure_def]

/-- The loop ends at a red node over trees of different heights. -/
theorem spoils_red {m n : ℕ} {s : Side}
    (hholds : Holds others nil (plug ctx (join s (.red, p, kp) X N)) t) (hX : Balanced X m)
    (hN : Balanced N n) (hne : m ≠ n) :
    Spoils others nil (entries (plug ctx (join s (.red, p, kp) X N))) (t, p) := by
  obtain ⟨t', hset, hholds'⟩ := hholds.setColor .black
  refine ⟨t, p, t', returns_leave (deleteFixupBody_red hholds.root_color), hset, others, _, hholds',
    entries_plug_congr _ (entries_join_congr _ rfl rfl rfl), fun _ _ ↦ rfl, Or.inl fun h hbalanced ↦ ?_⟩
  obtain ⟨h', hbelow⟩ := hbalanced.of_plug
  exact not_balanced_join hX hN hne hbelow

/-! ### The sentinel as the sibling -/

/-- Painting the sentinel. -/
theorem Holds.setColor_nil {tree : Tree} {c : Color} {k : ℤ} (hholds : Holds others nil tree t)
    (hcell : t.nodes nil = some ⟨.black, k, parent, nil, nil⟩) :
    ∃ t', t.setColor nil c = some t' ∧
      Holds (others.put nil ⟨c, k, parent, nil, nil⟩) nil tree t' := by
  refine ⟨{ t with nodes := t.nodes.put nil ⟨c, k, parent, nil, nil⟩ }, ?_, hholds.nil_eq,
    hholds.root, hholds.rep.frame fun b hb ↦ ?_, hholds.nodup, hholds.nil, fun a ha ↦ ?_⟩
  · rw [RbTree.setColor, RbTree.modify, hcell, Option.map_some]
  · exact Store.put_of_ne _ (ne_of_mem_of_not_mem hb hholds.nil) _
  · change t.nodes.put nil _ a = _
    by_cases hnil : a = nil
    · rw [hnil, Store.put_self, Store.put_self]
    · rw [Store.put_of_ne _ hnil, Store.put_of_ne _ hnil]
      exact hholds.outside a ha

section Cases

variable (hsentinel : Sentinel others nil parent) (hx : X = .nil → parent = p)

include hsentinel hx

/-- The sibling `w` became the root, and the sentinel becomes red. -/
theorem wrongSibling_root
    (hholds : Holds others nil
      (plug [⟨.left, (.red, p, kp), N⟩, ⟨.left, (.black, w, kw), F⟩] X) t) :
    t.nextSibling (ptr nil X) w .left = some nil ∧
      ∃ t', RbTree.balanceSibling .left t (ptr nil X) nil = some (t', p) ∧
        Spoils others nil (entries (plug [⟨.left, (.red, p, kp), N⟩, ⟨.left, (.black, w, kw), F⟩] X))
          (t', p) := by
  obtain ⟨k, hcell⟩ := hholds.sentinel hsentinel
  have hparent : t.parent w = some nil := hholds.up.up.root_parent
  have hchild : ∀ s, t.child s nil = some nil := fun s ↦ by
    rw [child_eq hcell]
    cases s <;> rfl
  have hcolor : t.color nil = some .black := color_eq hcell
  obtain ⟨t₁, hset₁, h₁⟩ := hholds.setColor_nil (c := .red) hcell
  obtain ⟨t₂, hset₂, h₂⟩ := h₁.up.setColor .black
  have hup : t₁.parent (ptr nil X) = some p := by
    rw [setColor_parent hset₁, hholds.parent_ptr hsentinel hx]
  have hred : ∀ q, ¬Sentinel (others.put nil ⟨.red, k, parent, nil, nil⟩) nil q := by
    rintro q ⟨k', hk'⟩
    rw [Store.put_self, Option.some.injEq, Node.mk.injEq] at hk'
    exact absurd hk'.1 (by decide)
  refine ⟨?_, t₁, ?_, t₁, p, t₂, returns_leave (deleteFixupBody_red h₁.up.root_color), hset₂, _, _,
    h₂, entries_plug_congr _ (entries_join_congr _ rfl rfl rfl), fun a ha ↦ Store.put_of_ne _ ha _,
    Or.inr hred⟩
  · simp only [RbTree.nextSibling, hparent, hchild, Option.bind_eq_bind, Option.bind_some]
  · simp only [RbTree.balanceSibling, RbTree.bothBlack, hchild, hcolor, hset₁, hup,
      Option.bind_eq_bind, Option.bind_some, if_true, decide_true, Option.pure_def]

/-- The sibling `w` became a right child, and takes its own place. -/
theorem wrongSibling_right (hF : rootColor F = .black) (hX : Balanced X h) (hN : Balanced N (h + 1))
    (hholds : Holds others nil (plug (⟨.left, (.red, p, kp), N⟩ :: ⟨.left, (.black, w, kw), F⟩ ::
      ⟨.right, (cg, g, kg), G⟩ :: ctx) X) t) :
    t.nextSibling (ptr nil X) w .left = some w ∧
      ∃ t', RbTree.balanceSibling .left t (ptr nil X) w = some (t', t'.root) ∧
        Spoils others nil (entries (plug (⟨.left, (.red, p, kp), N⟩ :: ⟨.left, (.black, w, kw), F⟩ ::
          ⟨.right, (cg, g, kg), G⟩ :: ctx) X)) (t', t'.root) := by
  have hw := hholds.up.up
  have hchild : t.child .right g = some (ptr nil (join .left (.black, w, kw)
    (join .left (.red, p, kp) X N) F)) := hw.up.root_near
  have hboth : t.bothBlack .left w = some false := by
    rw [bothBlack_eq hsentinel hw, rootColor_join]
    simp
  obtain ⟨t₁, h₁, hturn⟩ := turnSibling_rotates hsentinel hF hw (ptr nil X)
  obtain ⟨t₂, hraise, h₂⟩ := raiseSibling_spec hsentinel hx h₁.down
  have hspoils := spoils_root hsentinel h₂ fun h' hbalanced ↦ by
    obtain ⟨m, hbelow⟩ := hbalanced.of_paint_plug
    obtain ⟨m', hbelow'⟩ := hbelow.exists_near
    exact not_balanced_join hX hN (Nat.succ_ne_self h).symm hbelow'
  have hentries : entries (plug (⟨.right, (cg, g, kg), G⟩ :: ctx) (join .left (.black, w, kw)
      (join .left (.black, p, kp) X N) (paint .black F))) = entries (plug (⟨.left, (.red, p, kp), N⟩ ::
        ⟨.left, (.black, w, kw), F⟩ :: ⟨.right, (cg, g, kg), G⟩ :: ctx) X) :=
    entries_plug_congr _ (entries_join_congr _ rfl (entries_join_congr _ rfl rfl rfl)
      (entries_paint ..))
  rw [hentries] at hspoils
  refine ⟨?_, t₂, ?_, hspoils⟩
  · simp only [RbTree.nextSibling, hw.root_parent, parentOf_cons, hchild, ptr_join,
      Option.bind_eq_bind, Option.bind_some]
  · rw [h₁.down.parent_ptr hsentinel hx, Option.bind_some, h₁.root_far, Option.bind_some,
      ptr_join] at hturn
    simp only [RbTree.balanceSibling, hboth, hturn, hraise, Option.bind_eq_bind, Option.bind_some,
      Bool.false_eq_true, if_false]

omit hsentinel hx in
/-- The sibling `w` became a left child, and its sibling takes its place. -/
theorem nextSibling_left (hholds : Holds others nil (plug (⟨.left, (.red, p, kp), N⟩ ::
      ⟨.left, (.black, w, kw), F⟩ :: ⟨.left, (cg, g, kg), join .left (cs, σ, kσ) L R⟩ :: ctx) X) t)
    (x : ℕ) : t.nextSibling x w .left = some σ := by
  have hchild : t.child .right g = some (ptr nil (join .left (cs, σ, kσ) L R)) :=
    hholds.up.up.up.root_far
  simp only [RbTree.nextSibling, hholds.up.up.root_parent, parentOf_cons, hchild, ptr_join,
    Option.bind_eq_bind, Option.bind_some]

/-- The sibling of `w` has black children. -/
theorem wrongSibling_black (hL : rootColor L = .black) (hR : rootColor R = .black)
    (hX : Balanced X h) (hN : Balanced N (h + 1))
    (hholds : Holds others nil (plug (⟨.left, (.red, p, kp), N⟩ :: ⟨.left, (.black, w, kw), F⟩ ::
      ⟨.left, (cg, g, kg), join .left (cs, σ, kσ) L R⟩ :: ctx) X) t) :
    ∃ t', RbTree.balanceSibling .left t (ptr nil X) σ = some (t', p) ∧
      Spoils others nil (entries (plug (⟨.left, (.red, p, kp), N⟩ :: ⟨.left, (.black, w, kw), F⟩ ::
        ⟨.left, (cg, g, kg), join .left (cs, σ, kσ) L R⟩ :: ctx) X)) (t', p) := by
  have hboth := bothBlack_eq hsentinel hholds.up.up.swap
  rw [decide_eq_true ⟨hL, hR⟩] at hboth
  obtain ⟨t₁, hset₁, h₁⟩ := hholds.up.up.swap.setColor .red
  have h₂ := h₁.unswap.down
  have hspoils := spoils_red h₂ hX hN (Nat.succ_ne_self h).symm
  have hentries : entries (plug (⟨.left, (.black, w, kw), F⟩ :: ⟨.left, (cg, g, kg),
      join .left (.red, σ, kσ) L R⟩ :: ctx) (join .left (.red, p, kp) X N)) =
        entries (plug (⟨.left, (.red, p, kp), N⟩ :: ⟨.left, (.black, w, kw), F⟩ ::
          ⟨.left, (cg, g, kg), join .left (cs, σ, kσ) L R⟩ :: ctx) X) :=
    entries_plug_congr ctx (entries_join_congr .left rfl rfl
      (entries_join_congr .left (v := (cs, σ, kσ)) rfl rfl rfl))
  rw [hentries] at hspoils
  refine ⟨t₁, ?_, hspoils⟩
  simp only [RbTree.balanceSibling, hboth, hset₁, h₂.down.parent_ptr hsentinel hx,
    Option.bind_eq_bind, Option.bind_some, if_true, Option.pure_def]

/-- The sibling of `w` has a red far child: it gets the color of the parent of `x` and stays, and the
sibling of `x` goes up. -/
theorem wrongSibling_red {n : ℕ} {kn : ℤ} {NL NR : Tree} (hR : rootColor R = .red)
    (hX : Balanced X h) (hNL : Balanced NL h) (hNR : Balanced NR h)
    (hholds : Holds others nil (plug (⟨.left, (.red, p, kp), join .left (.black, n, kn) NL NR⟩ ::
      ⟨.left, (.black, w, kw), F⟩ :: ⟨.left, (cg, g, kg), join .left (cs, σ, kσ) L R⟩ :: ctx) X) t) :
    ∃ t', RbTree.balanceSibling .left t (ptr nil X) σ = some (t', t'.root) ∧
      Spoils others nil (entries (plug (⟨.left, (.red, p, kp), join .left (.black, n, kn) NL NR⟩ ::
        ⟨.left, (.black, w, kw), F⟩ :: ⟨.left, (cg, g, kg), join .left (cs, σ, kσ) L R⟩ :: ctx) X))
        (t', t'.root) := by
  have hS := hholds.up.up.swap
  have hboth : t.bothBlack .left σ = some false := by
    rw [bothBlack_eq hsentinel hS, hR]
    simp
  have hturn := turnSibling_red hsentinel hR hS (ptr nil X)
  obtain ⟨t₁, hset₁, h₁⟩ := hS.setColor .red
  obtain ⟨t₂, hset₂, h₂⟩ := h₁.unswap.down.setColor .black
  obtain ⟨t₃, hset₃, h₃⟩ := h₂.up.swap.down.swap.setColor_ptr hsentinel
  obtain ⟨t₄, hset₄, h₄⟩ := h₃.unswap.up.unswap.down.rotate
  have hspoils := spoils_root hsentinel h₄ fun h' hbalanced ↦ by
    obtain ⟨m, hbelow⟩ := hbalanced.of_paint_plug
    have hlow : Balanced (join .left (.black, p, kp) X NL) (h + 1) :=
      balanced_black.mpr ⟨hX, hNL⟩
    exact not_balanced_join hlow hNR (Nat.succ_ne_self h) hbelow
  have hentries : entries (plug (⟨.left, (.black, w, kw), F⟩ :: ⟨.left, (cg, g, kg),
      join .left (.red, σ, kσ) L (paint .black R)⟩ :: ctx)
        (join .left (.black, n, kn) (join .left (.black, p, kp) X NL) NR)) =
          entries (plug (⟨.left, (.red, p, kp), join .left (.black, n, kn) NL NR⟩ ::
            ⟨.left, (.black, w, kw), F⟩ :: ⟨.left, (cg, g, kg), join .left (cs, σ, kσ) L R⟩ :: ctx) X) :=
    entries_plug_congr ctx (entries_join_congr .left rfl
      (entries_join_congr .left rfl ((entries_rotate .left ..).trans
        (entries_join_congr .left (v := (.red, p, kp)) rfl rfl rfl)) rfl)
      (entries_join_congr .left rfl rfl (entries_paint ..)))
  rw [hentries] at hspoils
  refine ⟨t₄, ?_, hspoils⟩
  simp only [RbTree.balanceSibling, hboth, hturn, RbTree.raiseSibling,
    hholds.parent_ptr hsentinel hx, hholds.up.root_color, hset₁,
    h₁.unswap.down.down.parent_ptr hsentinel hx, hset₂, h₂.up.swap.root_far, hset₃,
    h₃.unswap.up.unswap.down.down.parent_ptr hsentinel hx, hset₄, Option.bind_eq_bind,
    Option.bind_some, Bool.false_eq_true, if_false, Option.pure_def]

/-- The sibling of `w` has a red near child and a black far one: it is turned, and then the sibling of
`x` goes up. -/
theorem wrongSibling_turn {n : ℕ} {kn : ℤ} {NL NR : Tree} (hR : rootColor R = .black)
    (hholds : Holds others nil (plug (⟨.left, (.red, p, kp), join .left (.black, n, kn) NL NR⟩ ::
      ⟨.left, (.black, w, kw), F⟩ ::
      ⟨.left, (cg, g, kg), join .left (.black, σ, kσ) (join .left (.red, l, kl) LL LR) R⟩ :: ctx) X)
      t) :
    ∃ t', RbTree.balanceSibling .left t (ptr nil X) σ = some (t', t'.root) ∧
      Holds others nil (plug (⟨.left, (.black, w, kw), F⟩ :: ⟨.left, (cg, g, kg),
        join .left (.black, l, kl) LL (join .left (.red, σ, kσ) LR R)⟩ :: ctx)
          (join .left (.red, n, kn) (join .left (.black, p, kp) X NL) (paint .black NR))) t' := by
  have hS := hholds.up.up.swap
  have hboth : t.bothBlack .left σ = some false := by
    rw [bothBlack_eq hsentinel hS, rootColor_join]
    simp
  obtain ⟨t₁, h₁, hturn⟩ := turnSibling_rotates hsentinel hR hS (ptr nil X)
  have hdown := h₁.unswap.down.down
  have hchild : t₁.child .right p = some (ptr nil (join .left (.black, n, kn) NL NR)) :=
    hdown.up.root_far
  rw [hdown.parent_ptr hsentinel hx, Option.bind_some, Side.other, hchild, Option.bind_some,
    ptr_join] at hturn
  obtain ⟨t₂, hraise, h₂⟩ := raiseSibling_spec hsentinel hx hdown
  refine ⟨t₂, ?_, h₂⟩
  simp only [RbTree.balanceSibling, hboth, hturn, hraise, Option.bind_eq_bind, Option.bind_some,
    Bool.false_eq_true, if_false]

omit hsentinel hx in
/-- What the turn leaves has the entries in the order before. -/
theorem entries_turned {n : ℕ} {kn : ℤ} {NL NR : Tree} :
    entries (plug (⟨.left, (.black, w, kw), F⟩ :: ⟨.left, (cg, g, kg),
      join .left (.black, l, kl) LL (join .left (.red, σ, kσ) LR R)⟩ :: ctx)
        (join .left (.red, n, kn) (join .left (.black, p, kp) X NL) (paint .black NR))) =
      entries (plug (⟨.left, (.red, p, kp), join .left (.black, n, kn) NL NR⟩ ::
        ⟨.left, (.black, w, kw), F⟩ ::
        ⟨.left, (cg, g, kg), join .left (.black, σ, kσ) (join .left (.red, l, kl) LL LR) R⟩ :: ctx)
          X) := by
  have hnear : entries (join .left (.red, n, kn) (join .left (.black, p, kp) X NL) (paint .black NR)) =
      entries (join .left (.red, p, kp) X (join .left (.black, n, kn) NL NR)) := by
    rw [← entries_rotate]
    exact entries_join_congr .left rfl (entries_join_congr .left rfl rfl rfl) (entries_paint ..)
  have hfar : entries (join .left (.black, l, kl) LL (join .left (.red, σ, kσ) LR R)) =
      entries (join .left (.black, σ, kσ) (join .left (.red, l, kl) LL LR) R) := by
    rw [entries_rotate]
    exact entries_join_congr .left rfl rfl (entries_join_congr .left rfl rfl rfl)
  exact entries_plug_congr ctx (entries_join_congr .left rfl
    (entries_join_congr .left rfl hnear rfl) hfar)

end Cases

/-! ### The round that meets a red sibling on the right -/

/-- Whether the tree is balanced after the loop has met the red sibling `W` on the right of `x`, given
the path to the parent of `x`. -/
def recovers (W : Tree) : Path → Bool
  | [] => false
  | f :: _ => f.side = .left ∧ rootColor f.sibling = .black ∧ rootColor f.sibling.left = .red ∧
      rootColor f.sibling.right = .black ∧ rootColor W.left.right = .red

theorem recovers_left {W : Tree} {u : ℕ × ℤ} :
    recovers W (⟨.left, (cg, u), join .left (cs, σ, kσ) L R⟩ :: ctx) = true ↔
      cs = .black ∧ rootColor L = .red ∧ rootColor R = .black ∧ rootColor W.left.right = .red :=
  decide_eq_true_iff.trans (and_iff_right rfl)

/-- The round that meets a red sibling on the right of `x` is the last but one, and whether the tree is
balanced then depends on what is around. -/
theorem redRight_round {W : Tree} (hsentinel : Sentinel others nil parent)
    (hx : X = .nil → parent = p)
    (hholds : Holds others nil (plug (⟨.left, (.black, p, kp), W⟩ :: ctx) X) t)
    (haccepts : Accepts (⟨.left, (.black, p, kp), W⟩ :: ctx) (h + 1) .black) (hX : Balanced X h)
    (hred : rootColor W = .red) : ∃ next, RbTree.deleteFixupSide .left t (ptr nil X) = some next ∧
      (recovers W ctx = true →
        Ends others nil (entries (plug (⟨.left, (.black, p, kp), W⟩ :: ctx) X)) next) ∧
      (recovers W ctx = false →
        Spoils others nil (entries (plug (⟨.left, (.black, p, kp), W⟩ :: ctx) X)) next) := by
  obtain ⟨⟨w, kw⟩, N, F, rfl, hNblack, hFblack, hN, hF⟩ := haccepts.sibling.1.red_join hred .left
  obtain ⟨t₁, h₁, hsettle⟩ := settleSibling_rotates hsentinel hx hholds
  have hside : ∀ {w' : ℕ} {next : RbTree × ℕ}, t₁.nextSibling (ptr nil X) w .left = some w' →
      RbTree.balanceSibling .left t₁ (ptr nil X) w' = some next →
        RbTree.deleteFixupSide .left t (ptr nil X) = some next := by
    intro w' next hnext hbalance
    simp only [RbTree.deleteFixupSide, hsettle, hnext, hbalance, Option.bind_eq_bind,
      Option.bind_some]
  have hentries : entries (plug (⟨.left, (.red, p, kp), N⟩ :: ⟨.left, (.black, w, kw), F⟩ :: ctx) X) =
      entries (plug (⟨.left, (.black, p, kp), join .left (.red, w, kw) N F⟩ :: ctx) X) :=
    entries_plug_congr ctx ((entries_rotate .left ..).trans
      (entries_join_congr .left (v := (.black, p, kp)) rfl rfl
        (entries_join_congr .left (v := (.red, w, kw)) rfl rfl rfl)))
  rw [← hentries]
  obtain ⟨⟨n, kn⟩, NL, NR, rfl, hNL, hNR⟩ := hN.black_join hNblack .left
  cases ctx with
  | nil =>
    obtain ⟨hnext, t', hbalance, hspoils⟩ := wrongSibling_root hsentinel hx h₁
    exact ⟨_, hside hnext hbalance, fun hrecovers ↦ absurd hrecovers Bool.false_ne_true,
      fun _ ↦ hspoils⟩
  | cons f ctx =>
    obtain ⟨side, ⟨cg, g, kg⟩, S⟩ := f
    cases side with
    | right =>
      obtain ⟨hnext, t', hbalance, hspoils⟩ := wrongSibling_right hsentinel hx hFblack hX hN h₁
      exact ⟨_, hside hnext hbalance, fun hrecovers ↦ absurd hrecovers Bool.false_ne_true,
        fun _ ↦ hspoils⟩
    | left =>
      have habove : Accepts (⟨.left, (cg, g, kg), S⟩ :: ctx) (h + 2) .black := haccepts.2
      have hS : Balanced S (h + 2) := habove.sibling.1
      obtain ⟨cs, ⟨σ, kσ⟩, L, R, rfl⟩ := hS.exists_join .left
      have hnext := nextSibling_left h₁ (ptr nil X)
      by_cases hboth : rootColor L = .black ∧ rootColor R = .black
      · obtain ⟨t', hbalance, hspoils⟩ :=
          wrongSibling_black hsentinel hx hboth.1 hboth.2 hX hN h₁
        refine ⟨_, hside hnext hbalance, fun hrecovers ↦ ?_, fun _ ↦ hspoils⟩
        exact absurd (hboth.1.symm.trans (recovers_left.mp hrecovers).2.1) (by decide)
      obtain rfl : cs = .black := by
        by_contra hcs
        obtain rfl := Color.eq_red_of_ne hcs
        obtain ⟨hL, hR, -, -⟩ := balanced_red.mp hS
        exact hboth ⟨hL, hR⟩
      by_cases hR : rootColor R = .red
      · obtain ⟨t', hbalance, hspoils⟩ := wrongSibling_red hsentinel hx hR hX hNL hNR h₁
        refine ⟨_, hside hnext hbalance, fun hrecovers ↦ ?_, fun _ ↦ hspoils⟩
        exact absurd (hR.symm.trans (recovers_left.mp hrecovers).2.2.1) (by decide)
      have hRblack := Color.eq_black_of_ne hR
      have hLred : rootColor L = .red := Color.eq_red_of_ne fun hL ↦ hboth ⟨hL, hRblack⟩
      obtain ⟨hL, hRheight⟩ := balanced_black.mp hS
      obtain ⟨⟨l, kl⟩, LL, LR, rfl, -, hLRblack, hLL, hLR⟩ := hL.red_join hLred .left
      have hlow : Balanced (join .left (.black, p, kp) X NL) (h + 1) :=
        balanced_black.mpr ⟨hX, hNL⟩
      obtain ⟨t', hbalance, h'⟩ := wrongSibling_turn hsentinel hx hRblack h₁
      refine ⟨_, hside hnext hbalance, fun hrecovers ↦ ?_, fun hrecovers ↦ ?_⟩
      · have hNRred : rootColor NR = .red := (recovers_left.mp hrecovers).2.2.2
        have hnear : Balanced (join .left (.black, w, kw) (join .left (.red, n, kn)
            (join .left (.black, p, kp) X NL) (paint .black NR)) F) (h + 2) :=
          balanced_black.mpr ⟨balanced_red.mpr ⟨rootColor_join .., rootColor_paint_black NR, hlow,
            hNR.paint_black hNRred⟩, hF⟩
        have hfar : Balanced (join .left (.black, l, kl) LL (join .left (.red, σ, kσ) LR R)) (h + 2) :=
          balanced_black.mpr ⟨hLL, balanced_red.mpr ⟨hLRblack, hRblack, hLR, hRheight⟩⟩
        obtain ⟨h'', hbalanced, hroot⟩ := habove.rejoin .left (g, kg) hnear hfar
          fun _ ↦ ⟨rootColor_join .., rootColor_join ..⟩
        have hends := ends_root h' ⟨h'', (paint_eq_self hroot).symm ▸ hbalanced⟩
        rwa [entries_turned] at hends
      · have hNRblack : rootColor NR = .black := Color.eq_black_of_ne fun hred ↦
          Bool.false_ne_true (hrecovers.symm.trans
            (recovers_left.mpr ⟨rfl, rootColor_join .., hRblack, hred⟩))
        rw [paint_eq_self hNRblack] at h'
        have hspoils := spoils_root hsentinel h' fun m hbalanced ↦ by
          obtain ⟨m', hbelow⟩ := hbalanced.of_paint_plug
          exact not_balanced_join hlow hNR (Nat.succ_ne_self h) hbelow
        rwa [← paint_eq_self hNRblack, entries_turned] at hspoils

end Jungle.RedBlack
