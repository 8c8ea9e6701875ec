import Jungle.LinkedLists.Sequence
import Mathlib.Data.List.TakeWhile
import Mathlib.Tactic.Ring

/-!
# Insertion into a sorted list

`insertSortedLL` scans past the items below the new one (`scan_eq`), returns `-1` if the scan stops
at the new item and otherwise hands the index to `insertNode`. On a strictly ascending list it
leaves the memory alone when the item is present (`insertSortedLL_eq_of_mem`) and inserts the item
in its place, whose index it returns, when it is absent (`insertSortedLL_eq_of_not_mem`). Only a
list of `INT_MAX` nodes rejects an absent item (`insertSortedLL_eq_of_full`), because the guard of
`insertNode` wraps there.
-/

set_option autoImplicit false
set_option relaxedAutoImplicit false

namespace Jungle.LinkedLists

open Jungle.Lib

variable {m : Memory} {p : ℕ} {entries : List (ℕ × ℤ)} {item : ℤ}

/-- The items of a list are strictly ascending. -/
def Ascending (entries : List (ℕ × ℤ)) : Prop := (entries.map Prod.snd).Pairwise (· < ·)

/-- The entries whose items are below an item, as far as the scan goes. -/
def below (item : ℤ) (entries : List (ℕ × ℤ)) : List (ℕ × ℤ) :=
  entries.takeWhile fun entry ↦ decide (entry.2 < item)

/-- The entries the scan does not pass. -/
def rest (item : ℤ) (entries : List (ℕ × ℤ)) : List (ℕ × ℤ) :=
  entries.dropWhile fun entry ↦ decide (entry.2 < item)

theorem below_append_rest (item : ℤ) (entries : List (ℕ × ℤ)) :
    below item entries ++ rest item entries = entries :=
  List.takeWhile_append_dropWhile

theorem length_below_le (item : ℤ) (entries : List (ℕ × ℤ)) :
    (below item entries).length ≤ entries.length := by
  have hlength := congrArg List.length (below_append_rest item entries)
  rw [List.length_append] at hlength
  omega

theorem lt_of_mem_below {item : ℤ} {entries : List (ℕ × ℤ)} {entry : ℕ × ℤ}
    (h : entry ∈ below item entries) : entry.2 < item := by
  simpa using List.mem_takeWhile_imp h

/-- In an ascending list the entries the scan does not pass hold items from the new one on. -/
theorem le_of_mem_rest (hascending : Ascending entries) {entry : ℕ × ℤ}
    (h : entry ∈ rest item entries) : item ≤ entry.2 := by
  induction entries with
  | nil => exact absurd h List.not_mem_nil
  | cons first entries ih =>
    rw [Ascending, List.map_cons, List.pairwise_cons] at hascending
    unfold rest at h ih
    rw [List.dropWhile_cons] at h
    split_ifs at h with hfirst
    · exact ih hascending.2 h
    · rcases List.mem_cons.mp h with rfl | hmem
      · simpa using hfirst
      · have hlt := hascending.1 entry.2 (List.mem_map_of_mem hmem)
        simp only [decide_eq_true_eq, not_lt] at hfirst
        omega

/-- The scan stops at the first entry it does not pass, with its index. -/
theorem scan_eq {nodes : Store ListNode} {x : Option ℕ} {fuel : ℕ} {index : ℤ}
    (h : Nodes nodes x entries none) (hfuel : entries.length < fuel) (hindex : 0 ≤ index)
    (hbound : index + entries.length ≤ intMax) :
    whileLoop (scanBody nodes item) fuel (x, index) =
      some (((rest item entries).map Prod.fst).head?, index + (below item entries).length) := by
  induction entries generalizing x fuel index with
  | nil =>
    obtain ⟨fuel, rfl⟩ : ∃ n, fuel = n + 1 := ⟨fuel - 1, by omega⟩
    obtain rfl : x = none := h
    rw [whileLoop_leave (by rfl)]
    simp [rest, below]
  | cons entry entries ih =>
    obtain ⟨a, v⟩ := entry
    obtain ⟨fuel, rfl⟩ : ∃ n, fuel = n + 1 := ⟨fuel - 1, by omega⟩
    obtain ⟨rfl, node, hnode, rfl, hrest⟩ := h
    rw [List.length_cons] at hfuel hbound
    by_cases hlt : node.item < item
    · have hbody : scanBody nodes item (some a, index) =
          some (.inl (node.next, int32 (index + 1))) := by
        simp [scanBody, hnode, hlt]
      rw [whileLoop_continue hbody, int32_of_mem (by unfold intMin; omega) (by omega),
        ih hrest (by omega) (by omega) (by push_cast at hbound; omega)]
      simp only [rest, below, List.dropWhile_cons, List.takeWhile_cons, hlt, decide_true,
        ↓reduceIte, List.length_cons]
      push_cast
      ring_nf
    · have hbody : scanBody nodes item (some a, index) = some (.inr (some a, index)) := by
        simp [scanBody, hnode, hlt]
      rw [whileLoop_leave hbody]
      simp [rest, below, hlt]

/-- `printList` terminates, having printed the items in order. -/
theorem printLoop_eq {nodes : Store ListNode} {x : Option ℕ} {fuel : ℕ}
    (h : Nodes nodes x entries none) (hfuel : entries.length < fuel) (printed : List ℤ) :
    whileLoop (printListBody nodes) fuel (x, printed) =
      some (printed ++ entries.map Prod.snd) := by
  induction entries generalizing x fuel printed with
  | nil =>
    obtain ⟨fuel, rfl⟩ : ∃ n, fuel = n + 1 := ⟨fuel - 1, by omega⟩
    obtain rfl : x = none := h
    rw [whileLoop_leave (by rfl)]
    simp
  | cons entry entries ih =>
    obtain ⟨a, v⟩ := entry
    obtain ⟨fuel, rfl⟩ : ∃ n, fuel = n + 1 := ⟨fuel - 1, by omega⟩
    obtain ⟨rfl, node, hnode, rfl, hrest⟩ := h
    rw [List.length_cons] at hfuel
    have hbody : printListBody nodes (some a, printed) =
        some (.inl (node.next, printed ++ [node.item])) := by
      simp [printListBody, hnode]
    rw [whileLoop_continue hbody, ih hrest (by omega)]
    simp

theorem printList_eq (h : IsList m p entries) {fuel : ℕ} (hfuel : entries.length < fuel) :
    printList fuel m (some p) = some (entries.map Prod.snd) := by
  obtain ⟨l, hl, hnodes, -⟩ := h
  simp only [printList, hl, Option.bind_eq_bind, Option.bind_some]
  rw [printLoop_eq hnodes hfuel, List.nil_append]

/-! ### `insertSortedLL` -/

/-- In an ascending list the item is present if and only if the scan stops at it. -/
theorem mem_items_iff (hascending : Ascending entries) :
    item ∈ entries.map Prod.snd ↔ ∃ a, (rest item entries).head? = some (a, item) := by
  constructor
  · intro hmem
    obtain ⟨⟨a, v⟩, hentry, rfl⟩ := List.mem_map.mp hmem
    rw [← below_append_rest v entries] at hentry
    rcases List.mem_append.mp hentry with hbelow | hrest
    · exact absurd (lt_of_mem_below hbelow) (lt_irrefl v)
    · cases hsplit : rest v entries with
      | nil => rw [hsplit] at hrest; exact absurd hrest List.not_mem_nil
      | cons first others =>
        obtain ⟨b, w⟩ := first
        rw [hsplit] at hrest
        have hle : v ≤ w := le_of_mem_rest hascending (hsplit ▸ List.mem_cons_self)
        rcases List.mem_cons.mp hrest with hfirst | hother
        · exact ⟨a, by rw [hfirst]; rfl⟩
        · have hordered := hascending
          rw [Ascending, ← below_append_rest v entries, hsplit, List.map_append, List.map_cons,
            List.pairwise_append, List.pairwise_cons] at hordered
          have hlt := hordered.2.1.1 v (List.mem_map.mpr ⟨_, hother, rfl⟩)
          omega
  · rintro ⟨a, hhead⟩
    have hmem : (a, item) ∈ rest item entries := List.mem_of_mem_head? hhead
    rw [← below_append_rest item entries, List.map_append]
    exact List.mem_append_right _ (List.mem_map.mpr ⟨_, hmem, rfl⟩)

/-- The item of the node the scan stops at, as `insertSortedLL` reads it. -/
theorem head_rest_item (h : IsList m p entries) {a : ℕ} {v : ℤ}
    (hhead : (rest item entries).head? = some (a, v)) :
    ∃ node, m.nodes a = some node ∧ node.item = v := by
  obtain ⟨l, -, hnodes, -⟩ := h
  refine hnodes.allocated (show (a, v) ∈ entries from ?_)
  rw [← below_append_rest item entries]
  exact List.mem_append_right _ (List.mem_of_mem_head? hhead)

/-- An ascending list stays ascending when an absent item is inserted where the scan stops. -/
theorem ascending_insert (hascending : Ascending entries)
    (habsent : item ∉ entries.map Prod.snd) (new : ℕ) :
    Ascending (entries.insertIdx (below item entries).length (new, item)) := by
  have hsplit := insertIdx_split (below item entries) (rest item entries) (new, item)
  rw [below_append_rest] at hsplit
  have hordered := hascending
  rw [Ascending, ← below_append_rest item entries, List.map_append, List.pairwise_append]
    at hordered
  obtain ⟨hbelow, hrest, hacross⟩ := hordered
  rw [Ascending, hsplit, List.map_append, List.map_cons, List.pairwise_append,
    List.pairwise_cons]
  refine ⟨hbelow, ⟨fun v hv ↦ ?_, hrest⟩, fun v hv w hw ↦ ?_⟩
  · obtain ⟨entry, hentry, rfl⟩ := List.mem_map.mp hv
    have hle := le_of_mem_rest hascending hentry
    have hne : entry.2 ≠ item := by
      rintro rfl
      refine habsent (List.mem_map.mpr ⟨entry, ?_, rfl⟩)
      rw [← below_append_rest entry.2 entries]
      exact List.mem_append_right _ hentry
    exact lt_of_le_of_ne hle hne.symm
  · obtain ⟨entry, hentry, rfl⟩ := List.mem_map.mp hv
    have hlt := lt_of_mem_below hentry
    rcases List.mem_cons.mp hw with rfl | hw
    · exact hlt
    · obtain ⟨other, hother, rfl⟩ := List.mem_map.mp hw
      exact lt_of_lt_of_le hlt (le_of_mem_rest hascending hother)

/-- The insertion after the scan, when `insertNode` succeeds. -/
theorem insertScanned_eq_of_zero {fuel : ℕ} {index : ℤ} {new : ℕ} {m' : Memory}
    (hinsert : insertNode m (some p) index item new = some (0, m')) :
    insertScanned fuel m p item new index =
      (printList fuel m' (some p)).map fun printed ↦ (index, m', printed) := by
  simp only [insertScanned, hinsert, Option.bind_eq_bind, Option.bind_some,
    if_neg (show ¬(0 : ℤ) = -1 by decide)]
  cases printList fuel m' (some p) <;> rfl

/-- The insertion after the scan, when `insertNode` fails. -/
theorem insertScanned_eq_of_fail {fuel : ℕ} {index : ℤ} {new : ℕ} {m' : Memory}
    (hinsert : insertNode m (some p) index item new = some (-1, m')) :
    insertScanned fuel m p item new index = some (-1, m', []) := by
  simp only [insertScanned, hinsert, Option.bind_eq_bind, Option.bind_some, ↓reduceIte,
    Option.pure_def]

theorem head_eq_none_iff {l : LinkedList} (hnodes : Nodes m.nodes l.head entries none) :
    l.head = none ↔ entries = [] := by
  rw [hnodes.head_eq]
  simp

/-- A present item leaves the memory alone. -/
theorem insertSortedLL_eq_of_mem (h : IsList m p entries)
    (hbound : (entries.length : ℤ) ≤ intMax) (hascending : Ascending entries)
    (hpresent : item ∈ entries.map Prod.snd) {fuel : ℕ} (hfuel : entries.length < fuel) (new : ℕ) :
    insertSortedLL fuel m (some p) item new = some (-1, m, []) := by
  obtain ⟨a, hrest⟩ := (mem_items_iff hascending).mp hpresent
  obtain ⟨node, hnode, hitem⟩ := head_rest_item h hrest
  obtain ⟨l, hl, hnodes, hsize⟩ := h
  have hhead : l.head ≠ none := by
    rw [ne_eq, head_eq_none_iff hnodes]
    rintro rfl
    exact absurd hpresent List.not_mem_nil
  simp only [insertSortedLL, hl, Option.bind_eq_bind, Option.bind_some, if_neg hhead,
    scan_eq hnodes hfuel le_rfl (show 0 + (entries.length : ℤ) ≤ intMax by omega),
    List.head?_map, hrest, Option.map_some, hnode, hitem, ↓reduceIte, Option.pure_def]

/-- On a list with nodes an absent item goes from the scan to `insertNode`. -/
theorem insertSortedLL_eq_insertScanned (h : IsList m p entries)
    (hbound : (entries.length : ℤ) ≤ intMax) (hascending : Ascending entries)
    (habsent : item ∉ entries.map Prod.snd) (hne : entries ≠ []) {fuel : ℕ}
    (hfuel : entries.length < fuel) (new : ℕ) :
    insertSortedLL fuel m (some p) item new =
      insertScanned fuel m p item new (below item entries).length := by
  obtain ⟨l, hl, hnodes, hsize⟩ := id h
  have hhead : l.head ≠ none := by rwa [ne_eq, head_eq_none_iff hnodes]
  simp only [insertSortedLL, hl, Option.bind_eq_bind, Option.bind_some, if_neg hhead,
    scan_eq hnodes hfuel le_rfl (show 0 + (entries.length : ℤ) ≤ intMax by omega), zero_add,
    List.head?_map]
  cases hrest : (rest item entries).head? with
  | none => rfl
  | some entry =>
    obtain ⟨a, v⟩ := entry
    obtain ⟨node, hnode, hitem⟩ := head_rest_item h hrest
    have hne : node.item ≠ item := by
      rintro rfl
      exact habsent ((mem_items_iff hascending).mpr ⟨a, by rw [hrest, hitem]⟩)
    simp only [Option.map_some, hnode, Option.bind_some, if_neg hne]

/-- An empty list takes its first item at index 0. -/
theorem insertSortedLL_eq_of_nil (h : IsList m p []) {fuel new : ℕ} {status : ℤ} {m' : Memory}
    (hinsert : insertNode m (some p) 0 item new = some (status, m')) :
    insertSortedLL fuel m (some p) item new = some (status, m', []) := by
  obtain ⟨l, hl, hnodes, -⟩ := h
  have hhead : l.head = none := hnodes
  simp only [insertSortedLL, hl, Option.bind_eq_bind, Option.bind_some, hhead, ↓reduceIte,
    hinsert, Option.pure_def]

/-- An absent item is inserted in its place, whose index is returned. -/
theorem insertSortedLL_eq_of_not_mem (h : IsList m p entries)
    (hroom : (entries.length : ℤ) < intMax) (hascending : Ascending entries)
    (habsent : item ∉ entries.map Prod.snd) {new : ℕ} (hnew : m.nodes new = none) :
    ∃ m' printed, Returns (fun fuel ↦ insertSortedLL fuel m (some p) item new)
        (((below item entries).length : ℤ), m', printed) ∧
      IsList m' p (entries.insertIdx (below item entries).length (new, item)) ∧
      OnlyTouches p (new :: entries.map Prod.fst) m m' := by
  have hle := length_below_le item entries
  have hindex : 0 ≤ ((below item entries).length : ℤ) ∧
      ((below item entries).length : ℤ) ≤ entries.length := by omega
  obtain ⟨m', hinsert, hlist, htouches⟩ := insertNode_eq_of_mem h hroom hindex item hnew
  rw [Int.toNat_natCast] at hlist
  by_cases hempty : entries = []
  · subst hempty
    exact ⟨m', [], ⟨0, fun _ _ ↦ insertSortedLL_eq_of_nil h hinsert⟩, hlist, htouches⟩
  · refine ⟨m', (entries.insertIdx (below item entries).length (new, item)).map Prod.snd,
      ⟨entries.length + 1, fun fuel hfuel ↦ ?_⟩, hlist, htouches⟩
    have hlength : (entries.insertIdx (below item entries).length (new, item)).length < fuel := by
      rw [List.length_insertIdx_of_le_length hle]
      exact hfuel
    simp only
    rw [insertSortedLL_eq_insertScanned h hroom.le hascending habsent hempty (by omega),
      insertScanned_eq_of_zero hinsert, printList_eq hlist hlength, Option.map_some]

/-- A list of `INT_MAX` nodes rejects an absent item. -/
theorem insertSortedLL_eq_of_full (h : IsList m p entries)
    (hfull : (entries.length : ℤ) = intMax) (hascending : Ascending entries)
    (habsent : item ∉ entries.map Prod.snd) {fuel : ℕ} (hfuel : entries.length < fuel) (new : ℕ) :
    insertSortedLL fuel m (some p) item new = some (-1, m, []) := by
  obtain ⟨l, hl, -, hsize⟩ := id h
  have hguard : ((below item entries).length : ℤ) < 0 ∨
      ((below item entries).length : ℤ) > int32 (l.size + 1) := by
    rw [hsize, hfull, int32_intMax_succ]
    right
    unfold intMin
    omega
  have hempty : entries ≠ [] := by
    rintro rfl
    exact absurd hfull (by decide)
  rw [insertSortedLL_eq_insertScanned h hfull.le hascending habsent hempty hfuel,
    insertScanned_eq_of_fail (insertNode_eq_of_guard hl hguard item new)]

end Jungle.LinkedLists
