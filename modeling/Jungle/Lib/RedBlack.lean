import Jungle.Lib.TreeContext

/-!
# Red-black trees

`Balanced t h`: no red node of the colored tree has a red child, and every path from the root down
meets `h` black nodes. `Accepts ctx h c`: the tree with a hole makes a balanced tree with a black root
of every balanced tree of height `h` whose root has the color `c` (`Accepts.balanced`); every hole
in a balanced tree is of this kind (`exists_accepts`).
-/

set_option autoImplicit false
set_option relaxedAutoImplicit false

namespace Jungle.Lib

open BinaryTree

/-- The color of a node. -/
inductive Color
  | red
  | black
deriving DecidableEq, Repr

theorem Color.eq_red_of_ne {c : Color} (h : c ≠ .black) : c = .red := by
  cases c
  · rfl
  · exact absurd rfl h

theorem Color.eq_black_of_ne {c : Color} (h : c ≠ .red) : c = .black := by
  cases c
  · exact absurd rfl h
  · rfl

variable {Value : Type*}

/-- The color of the root; the empty tree is black. -/
def rootColor : BinaryTree (Color × Value) → Color
  | nil => .black
  | node v _ _ => v.1

@[simp] theorem rootColor_nil : rootColor (nil : BinaryTree (Color × Value)) = .black := rfl

@[simp] theorem rootColor_join (s : Side) (v : Color × Value)
    (near far : BinaryTree (Color × Value)) : rootColor (join s v near far) = v.1 := by
  cases s <;> rfl

/-- The tree with its root colored. -/
def paint (c : Color) : BinaryTree (Color × Value) → BinaryTree (Color × Value)
  | nil => nil
  | node v left right => node (c, v.2) left right

@[simp] theorem paint_join (c : Color) (s : Side) (v : Color × Value)
    (near far : BinaryTree (Color × Value)) :
    paint c (join s v near far) = join s (c, v.2) near far := by
  cases s <;> rfl

theorem paint_eq_self {c : Color} {t : BinaryTree (Color × Value)} (h : rootColor t = c) :
    paint c t = t := by
  cases t with
  | nil => rfl
  | node v left right =>
    subst h
    rfl

/-- No red node has a red child, and all paths from the root down meet `h` black nodes. -/
def Balanced : BinaryTree (Color × Value) → ℕ → Prop
  | nil, h => h = 0
  | node (.red, _) left right, h =>
    rootColor left = .black ∧ rootColor right = .black ∧ Balanced left h ∧ Balanced right h
  | node (.black, _) left right, h => ∃ h', h = h' + 1 ∧ Balanced left h' ∧ Balanced right h'

theorem balanced_nil {h : ℕ} : Balanced (nil : BinaryTree (Color × Value)) h ↔ h = 0 := Iff.rfl

variable {s : Side} {v : Value} {near far t : BinaryTree (Color × Value)} {h : ℕ}

theorem balanced_red : Balanced (join s (.red, v) near far) h ↔
    rootColor near = .black ∧ rootColor far = .black ∧ Balanced near h ∧ Balanced far h := by
  cases s
  · exact Iff.rfl
  · simp only [join, Balanced]
    tauto

theorem balanced_black : Balanced (join s (.black, v) near far) (h + 1) ↔
    Balanced near h ∧ Balanced far h := by
  cases s
  · simp [join, Balanced]
  · simp only [join, Balanced, Nat.add_right_cancel_iff, exists_eq_left']
    exact and_comm

theorem not_balanced_black_zero : ¬Balanced (join s (.black, v) near far) 0 := by
  cases s <;> simp [join, Balanced]

/-- A tree of positive height, seen from a side, has a node. -/
theorem Balanced.exists_join (hbalanced : Balanced t (h + 1)) (s : Side) :
    ∃ c v near far, t = join s (c, v) near far := by
  have hnil : t ≠ nil := by
    rintro rfl
    exact absurd (balanced_nil.mp hbalanced) (Nat.succ_ne_zero h)
  obtain ⟨⟨c, v⟩, near, far, ht⟩ := Lib.exists_join s hnil
  exact ⟨c, v, near, far, ht⟩

/-- A red tree, seen from a side. -/
theorem Balanced.red_join (hbalanced : Balanced t h) (hred : rootColor t = .red) (s : Side) :
    ∃ v near far, t = join s (.red, v) near far ∧ rootColor near = .black ∧
      rootColor far = .black ∧ Balanced near h ∧ Balanced far h := by
  have hnil : t ≠ nil := by
    rintro rfl
    exact absurd hred (by simp)
  obtain ⟨⟨c, v⟩, near, far, rfl⟩ := Lib.exists_join s hnil
  rw [rootColor_join] at hred
  change c = .red at hred
  subst hred
  exact ⟨v, near, far, rfl, balanced_red.mp hbalanced⟩

/-- A black tree of positive height, seen from a side. -/
theorem Balanced.black_join (hbalanced : Balanced t (h + 1)) (hblack : rootColor t = .black)
    (s : Side) : ∃ v near far, t = join s (.black, v) near far ∧ Balanced near h ∧
      Balanced far h := by
  obtain ⟨c, v, near, far, rfl⟩ := hbalanced.exists_join s
  rw [rootColor_join] at hblack
  change c = .black at hblack
  subst hblack
  exact ⟨v, near, far, rfl, balanced_black.mp hbalanced⟩

theorem rootColor_paint_black (t : BinaryTree (Color × Value)) :
    rootColor (paint .black t) = .black := by
  cases t <;> rfl

/-- A red tree painted black is one higher. -/
theorem Balanced.paint_black (hbalanced : Balanced t h) (hred : rootColor t = .red) :
    Balanced (paint .black t) (h + 1) := by
  obtain ⟨v, near, far, rfl, -, -, hnear, hfar⟩ := hbalanced.red_join hred .left
  rw [paint_join]
  exact balanced_black.mpr ⟨hnear, hfar⟩

/-- A balanced tree is balanced with a black root, too. -/
theorem Balanced.exists_paint_black (hbalanced : Balanced t h) :
    ∃ h', Balanced (paint .black t) h' := by
  by_cases hblack : rootColor t = .black
  · exact ⟨h, (paint_eq_self hblack).symm ▸ hbalanced⟩
  · exact ⟨h + 1, hbalanced.paint_black (Color.eq_red_of_ne hblack)⟩

/-- A balanced tree has one height. -/
theorem Balanced.unique {h' : ℕ} (hbalanced : Balanced t h) (hbalanced' : Balanced t h') :
    h = h' := by
  induction t generalizing h h' with
  | nil => exact hbalanced.trans hbalanced'.symm
  | node v left right ihLeft _ =>
    obtain ⟨_ | _, v⟩ := v
    · exact ihLeft hbalanced.2.2.1 hbalanced'.2.2.1
    · obtain ⟨n, rfl, hleft, -⟩ := hbalanced
      obtain ⟨n', rfl, hleft', -⟩ := hbalanced'
      rw [ihLeft hleft hleft']

/-- A node over trees of different heights is not balanced. -/
theorem not_balanced_join {c : Color} {m n : ℕ} (hnear : Balanced near m) (hfar : Balanced far n)
    (hne : m ≠ n) : ¬Balanced (join s (c, v) near far) h := by
  intro hbalanced
  cases c with
  | red =>
    obtain ⟨-, -, hnear', hfar'⟩ := balanced_red.mp hbalanced
    exact hne ((hnear.unique hnear').trans (hfar'.unique hfar))
  | black =>
    cases h with
    | zero => exact not_balanced_black_zero hbalanced
    | succ h =>
      obtain ⟨hnear', hfar'⟩ := balanced_black.mp hbalanced
      exact hne ((hnear.unique hnear').trans (hfar'.unique hfar))

/-- A tree below a balanced one is balanced. -/
theorem Balanced.exists_near {v : Color × Value} (hbalanced : Balanced (join s v near far) h) :
    ∃ h', Balanced near h' := by
  obtain ⟨_ | _, v⟩ := v
  · exact ⟨h, (balanced_red.mp hbalanced).2.2.1⟩
  · cases h with
    | zero => exact absurd hbalanced not_balanced_black_zero
    | succ h => exact ⟨h, (balanced_black.mp hbalanced).1⟩

/-! ### Balanced trees with a hole -/

/-- The tree in a hole in a balanced tree is balanced. -/
theorem Balanced.of_plug {ctx : List (Frame (Color × Value))} (hbalanced : Balanced (plug ctx t) h) :
    ∃ h', Balanced t h' := by
  induction ctx generalizing t with
  | nil => exact ⟨h, hbalanced⟩
  | cons f ctx ih =>
    obtain ⟨h', hfill⟩ := ih hbalanced
    exact hfill.exists_near

/-- The tree in a hole below the root of a tree that is balanced with a black root is balanced. -/
theorem Balanced.of_paint_plug {f : Frame (Color × Value)} {ctx : List (Frame (Color × Value))}
    (hbalanced : Balanced (paint .black (plug (f :: ctx) t)) h) : ∃ h', Balanced t h' := by
  induction ctx generalizing f t with
  | nil =>
    rw [plug_cons, plug_nil, Frame.fill, paint_join] at hbalanced
    exact hbalanced.exists_near
  | cons g ctx ih =>
    obtain ⟨h', hfill⟩ := ih hbalanced
    exact hfill.exists_near

/-- The tree with a hole makes a balanced tree with a black root of the balanced trees of the height
whose root has the color. -/
def Accepts : List (Frame (Color × Value)) → ℕ → Color → Prop
  | [], _, c => c = .black
  | ⟨_, (.red, _), sibling⟩ :: ctx, h, c =>
    c = .black ∧ rootColor sibling = .black ∧ Balanced sibling h ∧ Accepts ctx h .red
  | ⟨_, (.black, _), sibling⟩ :: ctx, h, _ => Balanced sibling h ∧ Accepts ctx (h + 1) .black

variable {ctx : List (Frame (Color × Value))} {c : Color}

/-- A black tree fits wherever a red one does. -/
theorem Accepts.black (haccepts : Accepts ctx h c) : Accepts ctx h .black := by
  match ctx with
  | [] => rfl
  | ⟨_, (.red, _), _⟩ :: _ => exact ⟨rfl, haccepts.2⟩
  | ⟨_, (.black, _), _⟩ :: _ => exact haccepts

/-- A balanced tree in its place makes a balanced tree. -/
theorem Accepts.balanced (haccepts : Accepts ctx h c) (hcolor : rootColor t = c)
    (hbalanced : Balanced t h) : ∃ h', Balanced (plug ctx t) h' ∧ rootColor (plug ctx t) = .black := by
  subst hcolor
  induction ctx generalizing t h with
  | nil => exact ⟨h, hbalanced, haccepts⟩
  | cons f ctx ih =>
    obtain ⟨side, ⟨_ | _, v⟩, sibling⟩ := f
    · obtain ⟨hcolor, hsibling, hheight, hrest⟩ := haccepts
      refine ih (balanced_red.mpr ⟨hcolor, hsibling, hbalanced, hheight⟩) ?_
      rw [Frame.fill, rootColor_join]
      exact hrest
    · obtain ⟨hheight, hrest⟩ := haccepts
      refine ih (balanced_black.mpr ⟨hbalanced, hheight⟩) ?_
      rw [Frame.fill, rootColor_join]
      exact hrest

/-- Every hole in a balanced tree with a black root. -/
theorem exists_accepts {h' : ℕ} (hbalanced : Balanced (plug ctx t) h')
    (hroot : rootColor (plug ctx t) = .black) :
    ∃ h, Accepts ctx h (rootColor t) ∧ Balanced t h := by
  induction ctx generalizing t with
  | nil => exact ⟨h', hroot, hbalanced⟩
  | cons f ctx ih =>
    obtain ⟨h, haccepts, hfill⟩ := ih hbalanced hroot
    obtain ⟨side, ⟨_ | _, v⟩, sibling⟩ := f
    · rw [Frame.fill, rootColor_join] at haccepts
      obtain ⟨hcolor, hsibling, hheight, hheight'⟩ := balanced_red.mp hfill
      exact ⟨h, ⟨hcolor, hsibling, hheight', haccepts⟩, hheight⟩
    · rw [Frame.fill, rootColor_join] at haccepts
      cases h with
      | zero => exact absurd hfill not_balanced_black_zero
      | succ h =>
        obtain ⟨hheight, hheight'⟩ := balanced_black.mp hfill
        exact ⟨h, ⟨hheight', haccepts⟩, hheight⟩

/-- Above a red node there is a black one. -/
theorem Accepts.red_parent {f : Frame (Color × Value)} (haccepts : Accepts (f :: ctx) h c)
    (hred : f.value.1 = .red) : rootColor f.sibling = .black ∧ Balanced f.sibling h ∧
      ∃ side v sibling outer, ctx = ⟨side, (.black, v), sibling⟩ :: outer ∧ Balanced sibling h ∧
        Accepts outer (h + 1) .black := by
  obtain ⟨side, ⟨color, v⟩, sibling⟩ := f
  change color = .red at hred
  subst hred
  obtain ⟨-, hcolor, hheight, hrest⟩ := haccepts
  refine ⟨hcolor, hheight, ?_⟩
  match ctx with
  | [] => exact absurd hrest (by simp [Accepts])
  | ⟨side, (.red, v), sibling⟩ :: outer => exact absurd hrest.1 (by simp)
  | ⟨side, (.black, v), sibling⟩ :: outer => exact ⟨side, v, sibling, outer, rfl, hrest⟩

/-- The place of the node of the first frame is that of every node of its color over trees of the
height of its children. -/
theorem Accepts.rejoin {side : Side} {v : Value} {sibling : BinaryTree (Color × Value)}
    (haccepts : Accepts (⟨side, (c, v), sibling⟩ :: ctx) h .black) (side' : Side) (v' : Value)
    (hnear : Balanced near h) (hfar : Balanced far h)
    (hblack : c = .red → rootColor near = .black ∧ rootColor far = .black) :
    ∃ h', Balanced (plug ctx (join side' (c, v') near far)) h' ∧
      rootColor (plug ctx (join side' (c, v') near far)) = .black := by
  cases c with
  | red =>
    obtain ⟨hnearBlack, hfarBlack⟩ := hblack rfl
    exact haccepts.2.2.2.balanced (rootColor_join ..)
      (balanced_red.mpr ⟨hnearBlack, hfarBlack, hnear, hfar⟩)
  | black => exact haccepts.2.balanced (rootColor_join ..) (balanced_black.mpr ⟨hnear, hfar⟩)

/-- Another value in a frame. -/
theorem Accepts.rename {path : List (Frame (Color × Value))} {side : Side} {v : Value}
    {sibling : BinaryTree (Color × Value)} {d : Color}
    (haccepts : Accepts (path ++ ⟨side, (d, v), sibling⟩ :: ctx) h c) (v' : Value) :
    Accepts (path ++ ⟨side, (d, v'), sibling⟩ :: ctx) h c := by
  induction path generalizing h c with
  | nil => cases d <;> exact haccepts
  | cons f path ih =>
    obtain ⟨side, ⟨_ | _, w⟩, t⟩ := f
    · obtain ⟨hcolor, hblack, hheight, hrest⟩ := haccepts
      exact ⟨hcolor, hblack, hheight, ih hrest⟩
    · exact ⟨haccepts.1, ih haccepts.2⟩

/-- The sibling has the height of the hole, and is black below a red node. -/
theorem Accepts.sibling {f : Frame (Color × Value)} (haccepts : Accepts (f :: ctx) h .black) :
    Balanced f.sibling h ∧ (f.value.1 = .red → rootColor f.sibling = .black) := by
  obtain ⟨side, ⟨_ | _, v⟩, sibling⟩ := f
  · exact ⟨haccepts.2.2.1, fun _ ↦ haccepts.2.1⟩
  · exact ⟨haccepts.1, fun hred ↦ absurd hred (by simp)⟩

end Jungle.Lib
