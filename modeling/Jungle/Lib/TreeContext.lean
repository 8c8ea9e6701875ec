import Jungle.Lib.OrderedTree

/-!
# Binary trees with a hole

A tree with a hole is the list of the frames from the hole up to the root: for each, on which side
of the node the hole is, the value there, and the tree on the other side. `plug` puts a tree into
the hole. The in-order sequence of the result is that of the tree between what comes before the hole
and what comes after it (`inorder_plug`). Every node of a tree is the root of a tree in a hole
(`exists_plug`). `join` builds a node from the children on a given side and on the other one, which
makes one statement of a statement and its mirror image.
-/

set_option autoImplicit false
set_option relaxedAutoImplicit false

namespace Jungle.Lib

open BinaryTree

/-- A side of a node. -/
inductive Side
  | left
  | right
deriving DecidableEq, Repr

/-- The other side. -/
def Side.other : Side → Side
  | left => right
  | right => left

@[simp] theorem Side.other_other (s : Side) : s.other.other = s := by cases s <;> rfl

theorem Side.eq_or_eq_other (s first : Side) : first = s ∨ first = s.other := by
  cases s <;> cases first <;> simp [other]

theorem Side.other_ne (s : Side) : s.other ≠ s := by cases s <;> decide

variable {Value : Type*}

/-- The node with the near child on the side and the far one on the other side. -/
def join : Side → Value → BinaryTree Value → BinaryTree Value → BinaryTree Value
  | .left, v, near, far => node v near far
  | .right, v, near, far => node v far near

theorem join_other (s : Side) (v : Value) (near far : BinaryTree Value) :
    join s.other v near far = join s v far near := by
  cases s <;> rfl

/-- A node seen from a side. -/
theorem exists_join (s : Side) {t : BinaryTree Value} (h : t ≠ nil) :
    ∃ v near far, t = join s v near far := by
  cases t with
  | nil => exact absurd rfl h
  | node v left right =>
    cases s with
    | left => exact ⟨v, left, right, rfl⟩
    | right => exact ⟨v, right, left, rfl⟩

theorem exists_join_eq (r s : Side) (v : Value) (near far : BinaryTree Value) :
    ∃ near' far', join r v near far = join s v near' far' := by
  rcases Side.eq_or_eq_other s r with rfl | rfl
  · exact ⟨near, far, rfl⟩
  · exact ⟨far, near, join_other ..⟩

theorem join_ne_nil (s : Side) (v : Value) (near far : BinaryTree Value) :
    join s v near far ≠ nil := by
  cases s <;> simp [join]

/-- A rotation keeps the in-order sequence. -/
theorem inorder_rotate {s : Side} (v w : Value) (a b c : BinaryTree Value) :
    inorder (join s w (join s v a b) c) = inorder (join s v a (join s w b c)) := by
  cases s <;> simp [join]

/-- A node on the path to the hole. -/
structure Frame (Value : Type*) where
  side : Side
  value : Value
  sibling : BinaryTree Value

/-- The node with a tree in the place of the hole. -/
def Frame.fill (f : Frame Value) (t : BinaryTree Value) : BinaryTree Value :=
  join f.side f.value t f.sibling

/-- The whole tree with a tree in the place of the hole. -/
def plug : List (Frame Value) → BinaryTree Value → BinaryTree Value
  | [], t => t
  | f :: ctx, t => plug ctx (f.fill t)

@[simp] theorem plug_nil (t : BinaryTree Value) : plug [] t = t := rfl

@[simp] theorem plug_cons (f : Frame Value) (ctx : List (Frame Value)) (t : BinaryTree Value) :
    plug (f :: ctx) t = plug ctx (f.fill t) := rfl

theorem plug_append (inner outer : List (Frame Value)) (t : BinaryTree Value) :
    plug (inner ++ outer) t = plug outer (plug inner t) := by
  induction inner generalizing t with
  | nil => rfl
  | cons f inner ih => exact ih _

theorem plug_ne_nil (f : Frame Value) (ctx : List (Frame Value)) (t : BinaryTree Value) :
    plug (f :: ctx) t ≠ nil := by
  induction ctx generalizing f t with
  | nil => exact join_ne_nil f.side f.value t f.sibling
  | cons g ctx ih => exact ih g (f.fill t)

/-- The values before the hole. -/
def before : List (Frame Value) → List Value
  | [] => []
  | ⟨.left, _, _⟩ :: ctx => before ctx
  | ⟨.right, v, sibling⟩ :: ctx => before ctx ++ inorder sibling ++ [v]

/-- The values after the hole. -/
def after : List (Frame Value) → List Value
  | [] => []
  | ⟨.left, v, sibling⟩ :: ctx => v :: inorder sibling ++ after ctx
  | ⟨.right, _, _⟩ :: ctx => after ctx

/-- The in-order sequence around the hole. -/
theorem inorder_plug (ctx : List (Frame Value)) (t : BinaryTree Value) :
    inorder (plug ctx t) = before ctx ++ inorder t ++ after ctx := by
  induction ctx generalizing t with
  | nil => simp [before, after]
  | cons f ctx ih =>
    obtain ⟨side, v, sibling⟩ := f
    rw [plug_cons, ih, Frame.fill]
    cases side <;> simp [join, before, after]

/-- Trees with the same in-order sequence are interchangeable in the hole. -/
theorem inorder_plug_congr {ctx : List (Frame Value)} {t t' : BinaryTree Value}
    (h : inorder t' = inorder t) : inorder (plug ctx t') = inorder (plug ctx t) := by
  rw [inorder_plug, inorder_plug, h]

/-- Every value of a tree is at the root of a tree in a hole. -/
theorem exists_plug {v : Value} {t : BinaryTree Value} (h : v ∈ inorder t) :
    ∃ ctx left right, t = plug ctx (node v left right) := by
  have hgeneral : ∀ outer : List (Frame Value), ∃ ctx left right,
      plug outer t = plug ctx (node v left right) := by
    induction t with
    | nil => exact absurd h List.not_mem_nil
    | node w left right ihLeft ihRight =>
      intro outer
      rw [inorder_node, List.mem_append, List.mem_cons] at h
      rcases h with h | rfl | h
      · exact ihLeft h (⟨.left, w, right⟩ :: outer)
      · exact ⟨outer, left, right, rfl⟩
      · exact ihRight h (⟨.right, w, left⟩ :: outer)
  exact hgeneral []

/-- The outermost node of a tree on a side and what is above it. -/
theorem exists_outermost (s : Side) {t : BinaryTree Value} (h : t ≠ nil) :
    ∃ path w inner, t = plug path (join s w nil inner) ∧ ∀ f ∈ path, f.side = s := by
  have hbelow : ∀ {v : Value} {near far : BinaryTree Value},
      (near ≠ nil → ∃ path w inner, near = plug path (join s w nil inner) ∧
        ∀ f ∈ path, f.side = s) →
      ∃ path w inner, join s v near far = plug path (join s w nil inner) ∧
        ∀ f ∈ path, f.side = s := by
    intro v near far hnear
    by_cases hnil : near = nil
    · exact ⟨[], v, far, by rw [hnil, plug_nil], fun f hf ↦ absurd hf List.not_mem_nil⟩
    obtain ⟨path, w, inner, heq, hsides⟩ := hnear hnil
    refine ⟨path ++ [⟨s, v, far⟩], w, inner, ?_, fun f hf ↦ ?_⟩
    · rw [plug_append, ← heq]
      rfl
    · rcases List.mem_append.mp hf with hf | hf
      · exact hsides f hf
      · rw [List.mem_singleton.mp hf]
  induction t with
  | nil => exact absurd rfl h
  | node v left right ihLeft ihRight =>
    cases s with
    | left => exact hbelow ihLeft
    | right => exact hbelow ihRight

end Jungle.Lib
