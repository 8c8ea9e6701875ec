import Jungle.Lib.Segment
import Mathlib.Data.List.Chain
import Mathlib.Data.List.Nodup

/-!
# Doubly linked lists

`Links after before l` says that consecutive nodes of `l` are linked both ways by the partial maps
`after` and `before`. Nothing is said about the link that leaves the last node or the one that
enters the first. The nodes are of any type: where a list ends in null pointers and a header holds
its first and last node, the header can stand for the node before the first and after the last.
Linking a node in (`Links.insert`) and out (`Links.remove`) changes the links of its two neighbours
only. Links between cells of a store make up a segment (`Links.segment`).
-/

set_option autoImplicit false
set_option relaxedAutoImplicit false

namespace Jungle.Lib

variable {Node : Type*}

/-- Consecutive nodes are linked both ways. -/
def Links (after before : Node → Option Node) (nodes : List Node) : Prop :=
  nodes.IsChain fun x y ↦ after x = some y ∧ before y = some x

variable {after before after' before' : Node → Option Node} {nodes front back : List Node}
  {x y z : Node}

/-- Links depend on the links that leave a node but the last and enter a node but the first. -/
theorem Links.congr (h : Links after before nodes)
    (hafter : ∀ x ∈ nodes.dropLast, after' x = after x)
    (hbefore : ∀ y ∈ nodes.tail, before' y = before y) : Links after' before' nodes := by
  rw [Links, List.isChain_iff_forall_rel_of_append_cons_cons] at h ⊢
  intro x y front back hsplit
  have hx : x ∈ nodes.dropLast := by
    rw [hsplit, List.dropLast_append_of_ne_nil (List.cons_ne_nil _ _), List.dropLast_cons_cons]
    simp
  have hy : y ∈ nodes.tail := by
    rw [hsplit, List.tail_append]
    split_ifs with hfront
    · simp
    · simp
  rw [hafter x hx, hbefore y hy]
  exact h hsplit

/-- The links of a list are those up to a node and those from it on. -/
theorem links_split : Links after before (front ++ x :: back) ↔
    Links after before (front ++ [x]) ∧ Links after before (x :: back) :=
  List.isChain_split

@[simp] theorem links_cons_cons : Links after before (x :: y :: back) ↔
    (after x = some y ∧ before y = some x) ∧ Links after before (y :: back) :=
  List.isChain_cons_cons

@[simp] theorem links_singleton : Links after before [x] := List.isChain_singleton x

/-- The links that meet two neighbours. -/
theorem Links.neighbours (h : Links after before (front ++ x :: y :: back)) :
    after x = some y ∧ before y = some x :=
  (links_cons_cons.mp (links_split.mp h).2).1

/-- The nodes between `x` and `y` change, the links outside stay. -/
theorem Links.splice (middle middle' : List Node)
    (h : Links after before (front ++ x :: (middle ++ y :: back)))
    (hmiddle : Links after' before' (x :: (middle' ++ [y])))
    (hafter : ∀ w ∈ front ++ (y :: back).dropLast, after' w = after w)
    (hbefore : ∀ w ∈ (front ++ [x]).tail ++ back, before' w = before w) :
    Links after' before' (front ++ x :: (middle' ++ y :: back)) := by
  obtain ⟨hfront, hrest⟩ := links_split.mp h
  rw [← List.cons_append] at hrest
  have hback := (links_split.mp hrest).2
  refine links_split.mpr ⟨hfront.congr (fun w hw ↦ ?_) fun w hw ↦ ?_, ?_⟩
  · rw [List.dropLast_concat] at hw
    exact hafter w (List.mem_append_left _ hw)
  · exact hbefore w (List.mem_append_left _ hw)
  · rw [← List.cons_append] at hmiddle ⊢
    refine links_split.mpr ⟨hmiddle, hback.congr (fun w hw ↦ ?_) fun w hw ↦ ?_⟩
    · exact hafter w (List.mem_append_right _ hw)
    · exact hbefore w (List.mem_append_right _ hw)

/-- Linking the node `z` in between two neighbours. -/
theorem Links.insert (h : Links after before (front ++ x :: y :: back))
    (hxz : after' x = some z) (hzx : before' z = some x) (hzy : after' z = some y)
    (hyz : before' y = some z) (hafter : ∀ w ∈ front ++ (y :: back).dropLast, after' w = after w)
    (hbefore : ∀ w ∈ (front ++ [x]).tail ++ back, before' w = before w) :
    Links after' before' (front ++ x :: z :: y :: back) :=
  h.splice [] [z]
    (links_cons_cons.mpr ⟨⟨hxz, hzx⟩, links_cons_cons.mpr ⟨⟨hzy, hyz⟩, links_singleton⟩⟩)
    hafter hbefore

/-- Linking the node `z` out from between its neighbours. -/
theorem Links.remove (h : Links after before (front ++ x :: z :: y :: back))
    (hxy : after' x = some y) (hyx : before' y = some x)
    (hafter : ∀ w ∈ front ++ (y :: back).dropLast, after' w = after w)
    (hbefore : ∀ w ∈ (front ++ [x]).tail ++ back, before' w = before w) :
    Links after' before' (front ++ x :: y :: back) :=
  h.splice [z] []
    (links_cons_cons.mpr ⟨⟨hxy, hyx⟩, links_singleton⟩) hafter hbefore

/-- The links of a list run backwards through the reversed list. -/
theorem Links.reverse (h : Links after before nodes) : Links before after nodes.reverse := by
  refine List.isChain_reverse.mpr (List.IsChain.imp (fun x y hlink ↦ ?_) h)
  exact ⟨hlink.2, hlink.1⟩

/-- Links between cells, from a node `w` to the null pointer, make up a segment. -/
theorem Links.segment {Cell Item : Type*} {item : Cell → Item} {next : Cell → Option ℕ}
    {s : Store Cell} {after before : Option ℕ → Option (Option ℕ)} {entries : List (ℕ × Item)}
    {w x : Option ℕ} (hafter : ∀ a, after (some a) = (s a).map next)
    (hitem : ∀ entry ∈ entries, (s entry.1).map item = some entry.2)
    (h : Links after before (w :: ((entries.map Prod.fst).map some ++ [none])))
    (hw : after w = some x) : Segment item next s x entries none := by
  induction entries generalizing w x with
  | nil => exact Option.some.inj (hw.symm.trans (links_cons_cons.mp h).1.1)
  | cons entry entries ih =>
    obtain ⟨⟨hfirst, -⟩, hrest⟩ := links_cons_cons.mp h
    obtain ⟨cell, hcell, hcellItem⟩ :=
      Option.map_eq_some_iff.mp (hitem entry List.mem_cons_self)
    refine ⟨Option.some.inj (hw.symm.trans hfirst), cell, hcell, hcellItem, ih ?_ hrest ?_⟩
    · exact fun other hother ↦ hitem other (List.mem_cons_of_mem _ hother)
    · rw [hafter, hcell, Option.map_some]

end Jungle.Lib
