import Jungle.Lib.Links
import Jungle.MallocLab.Basic

/-!
# The free list

`Linked s fl` says that the list from `free_listp` on links the listed blocks both ways. The `NULL` that
the first block has for its predecessor stands in front of the list, with `free_listp` for its link, and
the `NULL` that the last one has for its successor behind it. Taking a block out and putting one in
front change links of listed blocks only.
-/

set_option autoImplicit false
set_option relaxedAutoImplicit false

namespace Jungle.MallocLab

open Jungle.Lib

/-- The memory of `mem_init` has addresses of 8 bytes that are not `NULL`, and is aligned. -/
structure State.Placed (s : State) : Prop where
  pos : 0 < s.startBrk
  aligned : s.startBrk % 8 = 0
  bound : s.startBrk + MAX_HEAP ≤ 2 ^ 64

/-- The link to the next free block, `NULL` leading to the first one. -/
def State.after (s : State) (x : ℕ) : Option ℕ :=
  some (if x = 0 then s.freeListp else s.mem.load x 8)

/-- The link to the previous free block, the `NULL` at the end leading to the last one. -/
def State.before (s : State) (last y : ℕ) : Option ℕ :=
  some (if y = 0 then last else s.mem.load (y + DSIZE) 8)

/-- `NULL`, the listed blocks and `NULL` again. -/
def ring (fl : List ℕ) : List ℕ := 0 :: (fl ++ [0])

/-- The list from `free_listp` on links the listed blocks both ways. -/
structure Linked (s : State) (fl : List ℕ) : Prop where
  links : Links s.after (s.before (fl.getLastD 0)) (ring fl)
  nodup : fl.Nodup

/-- The links of the listed blocks do not meet. -/
structure Cells (s : State) (fl : List ℕ) : Prop where
  arena : ∀ c ∈ fl, InArena s c 16
  apart : ∀ c ∈ fl, ∀ d ∈ fl, c ≠ d → c + 16 ≤ d ∨ d + 16 ≤ c

/-- The addresses of the links of the listed blocks. -/
def LinksOf (fl : List ℕ) (x : ℕ) : Prop := ∃ c ∈ fl, c ≤ x ∧ x < c + 16

variable {s : State} {fl l r : List ℕ} {p q x y n v : ℕ} {m : Bytes}

theorem load_eq (h : InArena s p n) : load s p n = some (s.mem.load p n) := if_pos h

theorem store_eq (h : InArena s p n) (v : ℕ) :
    store s p n v = some { s with mem := s.mem.store p n v } :=
  if_pos h

theorem LinksOf.mono {fl' : List ℕ} (h : LinksOf fl x) (hsub : fl ⊆ fl') : LinksOf fl' x := by
  obtain ⟨c, hc, hx⟩ := h
  exact ⟨c, hsub hc, hx⟩

namespace Cells

theorem mono {fl' : List ℕ} (h : Cells s fl) (hsub : fl' ⊆ fl) : Cells s fl' where
  arena c hc := h.arena c (hsub hc)
  apart c hc d hd := h.apart c (hsub hc) d (hsub hd)

theorem ne_zero (h : Cells s fl) (hs : s.Placed) (hp : p ∈ fl) : p ≠ 0 := by
  have harena := (h.arena p hp).1
  have hpos := hs.pos
  omega

theorem lt (h : Cells s fl) (hs : s.Placed) (hp : p ∈ fl) : p < 256 ^ 8 := by
  have harena := (h.arena p hp).2
  have hbound := hs.bound
  have hpow : 256 ^ 8 = 2 ^ 64 := by decide
  omega

theorem next_arena (h : Cells s fl) (hp : p ∈ fl) : InArena s p 8 := by
  have harena := h.arena p hp
  exact ⟨harena.1, by have hle := harena.2; omega⟩

theorem prev_arena (h : Cells s fl) (hp : p ∈ fl) : InArena s (p + DSIZE) 8 := by
  have harena := h.arena p hp
  unfold InArena DSIZE at *
  omega

end Cells

/-- The free list depends on `free_listp` and the links of the listed blocks only. -/
theorem Linked.frame (h : Linked s fl) (hsame : ∀ x, LinksOf fl x → m x = s.mem x) (brk : ℕ) :
    Linked { s with mem := m, brk := brk } fl := by
  have hload : ∀ c ∈ fl, m.load c 8 = s.mem.load c 8 ∧
      m.load (c + DSIZE) 8 = s.mem.load (c + DSIZE) 8 := by
    unfold DSIZE
    intro c hc
    exact ⟨Bytes.load_congr fun x hle hlt ↦ hsame x ⟨c, hc, hle, by omega⟩,
      Bytes.load_congr fun x hle hlt ↦ hsame x ⟨c, hc, by omega, by omega⟩⟩
  have hmem : ∀ w ∈ ring fl, w ≠ 0 → w ∈ fl := by
    intro w hw hne
    simpa [ring, hne] using hw
  refine ⟨h.links.congr (fun w hw ↦ ?_) fun w hw ↦ ?_, h.nodup⟩
  · simp only [State.after]
    split_ifs with hzero
    · rfl
    · rw [(hload w (hmem w (List.dropLast_subset _ hw) hzero)).1]
  · simp only [State.before]
    split_ifs with hzero
    · rfl
    · rw [(hload w (hmem w (List.mem_of_mem_tail hw) hzero)).2]

/-! ### Taking a block out -/

/-- The neighbours of a block in the ring, `NULL` at the ends of the list. -/
theorem exists_neighbours (l r : List ℕ) : ∃ front x y back,
    (x = 0 ∧ front = [] ∧ l = [] ∨ ∃ f, front = 0 :: f ∧ l = f ++ [x]) ∧
    (y = 0 ∧ back = [] ∧ r = [] ∨ ∃ b, back = b ++ [0] ∧ r = y :: b) ∧
    (∀ q, ring (l ++ q :: r) = front ++ x :: q :: y :: back) ∧
      ring (l ++ r) = front ++ x :: y :: back := by
  rcases List.eq_nil_or_concat l with rfl | ⟨f, x, rfl⟩ <;> cases r with
  | nil => simp [ring]
  | cons y b => simp [ring]

/-- The state in which `y` follows `x`, where each of them may be `NULL`. -/
def State.link (s : State) (x y : ℕ) : State :=
  let m := if x = 0 then s.mem else s.mem.store x 8 y
  { s with
    mem := if y = 0 then m else m.store (y + DSIZE) 8 x
    freeListp := if x = 0 then y else s.freeListp }

/-- Linking two blocks changes only their links. -/
theorem link_frame {z : ℕ} (hx : x ≠ 0 → ¬(x ≤ z ∧ z < x + 16))
    (hy : y ≠ 0 → ¬(y ≤ z ∧ z < y + 16)) : (s.link x y).mem z = s.mem z := by
  simp only [State.link]
  unfold DSIZE
  split_ifs with hy0 hx0 hx0
  · rfl
  · exact Bytes.store_of_not_mem (by have := hx hx0; omega)
  · exact Bytes.store_of_not_mem (by have := hy hy0; omega)
  · rw [Bytes.store_of_not_mem (by have := hy hy0; omega),
      Bytes.store_of_not_mem (by have := hx hx0; omega)]

/-- A listed block is `c` or its links do not meet those of `c`. -/
theorem Cells.eq_or_apart (h : Cells s fl) (hp : p ∈ fl) {c : ℕ} (hc : c = 0 ∨ c ∈ fl)
    (hzero : c ≠ 0) : p = c ∨ p + 16 ≤ c ∨ c + 16 ≤ p := by
  by_cases hne : p = c
  · exact Or.inl hne
  · exact Or.inr (h.apart p hp c (hc.resolve_left hzero) hne)

/-- The link that leaves another block than `x` stays. -/
theorem link_next_of_ne (hcells : Cells s fl) (hx : x = 0 ∨ x ∈ fl) (hy : y = 0 ∨ y ∈ fl)
    (hp : p ∈ fl) (hne : p ≠ x) : (s.link x y).mem.load p 8 = s.mem.load p 8 := by
  have hxp := hcells.eq_or_apart hp hx
  have hyp := hcells.eq_or_apart hp hy
  simp only [State.link]
  unfold DSIZE
  split_ifs with hy0 hx0 hx0
  · rfl
  · exact Bytes.load_store_of_apart (by omega)
  · exact Bytes.load_store_of_apart (by omega)
  · rw [Bytes.load_store_of_apart (by omega), Bytes.load_store_of_apart (by omega)]

/-- The link that enters another block than `y` stays. -/
theorem link_prev_of_ne (hcells : Cells s fl) (hx : x = 0 ∨ x ∈ fl) (hy : y = 0 ∨ y ∈ fl)
    (hp : p ∈ fl) (hne : p ≠ y) :
    (s.link x y).mem.load (p + DSIZE) 8 = s.mem.load (p + DSIZE) 8 := by
  have hxp := hcells.eq_or_apart hp hx
  have hyp := hcells.eq_or_apart hp hy
  simp only [State.link]
  unfold DSIZE
  split_ifs with hy0 hx0 hx0
  · rfl
  · exact Bytes.load_store_of_apart (by omega)
  · exact Bytes.load_store_of_apart (by omega)
  · rw [Bytes.load_store_of_apart (by omega), Bytes.load_store_of_apart (by omega)]

/-- `y` follows `x`. -/
theorem link_after (hs : s.Placed) (hcells : Cells s fl) (hx : x = 0 ∨ x ∈ fl)
    (hy : y = 0 ∨ y ∈ fl) : (s.link x y).after x = some y := by
  have hlt : y < 256 ^ 8 := by
    rcases hy with rfl | hy
    · decide
    · exact hcells.lt hs hy
  simp only [State.after, State.link]
  unfold DSIZE
  split_ifs with hx0 hy0
  · rfl
  · rw [Bytes.load_store_self, Nat.mod_eq_of_lt hlt]
  · have hyx := hcells.eq_or_apart (hx.resolve_left hx0) hy hy0
    rw [Bytes.load_store_of_apart (by omega), Bytes.load_store_self, Nat.mod_eq_of_lt hlt]

/-- `x` precedes `y`. -/
theorem link_before (hs : s.Placed) (hcells : Cells s fl) (hx : x = 0 ∨ x ∈ fl) (hy : y ≠ 0)
    (last : ℕ) : (s.link x y).before last y = some x := by
  have hlt : x < 256 ^ 8 := by
    rcases hx with rfl | hx
    · decide
    · exact hcells.lt hs hx
  simp only [State.before, State.link, if_neg hy, Bytes.load_store_self, Nat.mod_eq_of_lt hlt]

/-- `remove_from_free_list` links the neighbours of the block. -/
theorem removeFromFreeList_eq (hcells : Cells s fl) (hq : q ∈ fl) (hx : x = 0 ∨ x ∈ fl)
    (hy : y = 0 ∨ y ∈ fl) (hxq : x ≠ q) (hprev : s.mem.load (q + DSIZE) 8 = x)
    (hnext : s.mem.load q 8 = y) : removeFromFreeList s q = some (s.link x y) := by
  have hprev_eq : ∀ m head, prevFree { s with mem := m, freeListp := head } q =
      some (m.load (q + DSIZE) 8) := fun _ _ ↦ load_eq (hcells.prev_arena hq)
  have hnext_eq : ∀ m head, nextFree { s with mem := m, freeListp := head } q =
      some (m.load q 8) := fun _ _ ↦ load_eq (hcells.next_arena hq)
  have hsecond : ∀ m head, m.load q 8 = y → m.load (q + DSIZE) 8 = x →
      (do if (← nextFree { s with mem := m, freeListp := head } q) ≠ 0 then
            setPrevFree { s with mem := m, freeListp := head }
              (← nextFree { s with mem := m, freeListp := head } q)
              (← prevFree { s with mem := m, freeListp := head } q)
          else return { s with mem := m, freeListp := head }) =
        some { s with
          mem := if y = 0 then m else m.store (y + DSIZE) 8 x, freeListp := head } := by
    intro m head hy' hx'
    simp only [hnext_eq, hprev_eq, hy', hx', Option.bind_eq_bind, Option.bind_some]
    by_cases hy0 : y = 0
    · rw [if_neg (not_not.mpr hy0), if_pos hy0]
      rfl
    · rw [if_pos hy0, if_neg hy0]
      exact store_eq (s := { s with mem := m, freeListp := head })
        (hcells.prev_arena (hy.resolve_left hy0)) x
  have hstored : x ≠ 0 → (s.mem.store x 8 y).load q 8 = y ∧
      (s.mem.store x 8 y).load (q + DSIZE) 8 = x := by
    intro hx0
    have hapart := hcells.apart q hq x (hx.resolve_left hx0) hxq.symm
    unfold DSIZE at *
    rw [Bytes.load_store_of_apart (by omega), Bytes.load_store_of_apart (by omega)]
    exact ⟨hnext, hprev⟩
  have hfirst := hprev_eq s.mem s.freeListp
  have hfirst' := hnext_eq s.mem s.freeListp
  simp only [removeFromFreeList]
  rw [hfirst, hfirst', hprev, hnext, State.link]
  simp only [Option.bind_eq_bind, Option.bind_some]
  by_cases hx0 : x = 0
  · rw [if_pos hx0, if_pos hx0, if_pos hx0]
    exact hsecond s.mem y hnext hprev
  · rw [if_neg hx0, if_neg hx0, if_neg hx0, setNextFree,
      store_eq (hcells.next_arena (hx.resolve_left hx0))]
    exact hsecond _ _ (hstored hx0).1 (hstored hx0).2

/-- `remove_from_free_list` takes a block out of the list. -/
theorem removeFromFreeList_spec (hs : s.Placed) (h : Linked s (l ++ q :: r))
    (hcells : Cells s (l ++ q :: r)) : ∃ m p,
      removeFromFreeList s q = some { s with mem := m, freeListp := p } ∧
      Linked { s with mem := m, freeListp := p } (l ++ r) ∧
      ∀ z, ¬LinksOf (l ++ r) z → m z = s.mem z := by
  obtain ⟨front, x, y, back, hx, hy, hring, hring'⟩ := exists_neighbours l r
  have hlinks := h.links
  rw [hring] at hlinks
  have hq : q ∈ l ++ q :: r := by simp
  have hq0 := hcells.ne_zero hs hq
  have hzero : ∀ w ∈ l ++ q :: r, w ≠ 0 := fun w hw ↦ hcells.ne_zero hs hw
  have hnodup := h.nodup
  obtain ⟨⟨-, hprev⟩, hrest⟩ := links_cons_cons.mp (links_split.mp hlinks).2
  obtain ⟨⟨hnext, -⟩, -⟩ := links_cons_cons.mp hrest
  have hxl : x = 0 ∨ x ∈ l := by
    rcases hx with ⟨hx, -⟩ | ⟨f, -, rfl⟩
    · exact Or.inl hx
    · exact Or.inr (by simp)
  have hyr : y = 0 ∨ y ∈ r := by
    rcases hy with ⟨hy, -⟩ | ⟨b, -, rfl⟩
    · exact Or.inl hy
    · exact Or.inr List.mem_cons_self
  have hxfl : x = 0 ∨ x ∈ l ++ q :: r := hxl.imp_right fun hx ↦ List.mem_append_left _ hx
  have hyfl : y = 0 ∨ y ∈ l ++ q :: r := hyr.imp_right fun hy ↦ by simp [hy]
  have hnot : q ∉ l ∧ q ∉ r := by
    obtain ⟨-, hqr, hdisjoint⟩ := List.nodup_append.mp hnodup
    exact ⟨fun hql ↦ hdisjoint q hql q List.mem_cons_self rfl, (List.nodup_cons.mp hqr).1⟩
  have hxq : x ≠ q := by
    rintro rfl
    exact hxl.elim hq0 hnot.1
  have hdisjoint : ∀ a ∈ l, ∀ b ∈ r, a ≠ b := fun a ha b hb ↦
    (List.nodup_append.mp hnodup).2.2 a ha b (List.mem_cons_of_mem q hb)
  simp only [State.before, if_neg hq0, Option.some.injEq] at hprev
  simp only [State.after, if_neg hq0, Option.some.injEq] at hnext
  refine ⟨(s.link x y).mem, (s.link x y).freeListp,
    removeFromFreeList_eq hcells hq hxfl hyfl hxq hprev hnext, ⟨?_, ?_⟩, fun z hz ↦ ?_⟩
  · change Links (s.link x y).after ((s.link x y).before _) _
    have hafter : ∀ w ∈ l ++ q :: r, w ≠ x → (s.link x y).after w = s.after w := by
      intro w hw hwx
      simp only [State.after, if_neg (hzero w hw), link_next_of_ne hcells hxfl hyfl hw hwx]
    have hbefore : ∀ last last', ∀ w ∈ l ++ q :: r, w ≠ y →
        (s.link x y).before last w = s.before last' w := by
      intro last last' w hw hwy
      simp only [State.before, if_neg (hzero w hw), link_prev_of_ne hcells hxfl hyfl hw hwy]
    rw [hring']
    refine hlinks.remove (link_after hs hcells hxfl hyfl) ?_ (fun w hw ↦ ?_) fun w hw ↦ ?_
    · by_cases hy0 : y = 0
      · obtain ⟨-, -, rfl⟩ : y = 0 ∧ back = [] ∧ r = [] := by
          refine hy.resolve_right ?_
          rintro ⟨b, -, rfl⟩
          exact hzero y (by simp) hy0
        rw [hy0, State.before, if_pos rfl, List.append_nil]
        rcases hx with ⟨rfl, -, rfl⟩ | ⟨f, -, rfl⟩
        · rfl
        · simp
      · exact link_before hs hcells hxfl hy0 _
    · rcases List.mem_append.mp hw with hw | hw
      · rcases hx with ⟨-, rfl, -⟩ | ⟨f, rfl, rfl⟩
        · exact absurd hw List.not_mem_nil
        rcases List.mem_cons.mp hw with rfl | hw
        · have hx0 := hzero x (by simp)
          simp only [State.after, State.link, if_pos, if_neg hx0]
        · have hf := (List.nodup_append.mp (List.nodup_append.mp hnodup).1).2.2
          exact hafter w (by simp [hw]) (hf w hw x (List.mem_singleton_self x))
      · have hwr : w ∈ r := by
          rcases hy with ⟨-, rfl, -⟩ | ⟨b, rfl, rfl⟩
          · exact absurd hw List.not_mem_nil
          · rwa [← List.cons_append, List.dropLast_concat] at hw
        refine hafter w (by simp [hwr]) fun hwx ↦ ?_
        rcases hxl with hx0 | hxl
        · exact hzero w (by simp [hwr]) (hwx.trans hx0)
        · exact hdisjoint x hxl w hwr hwx.symm
    · rcases List.mem_append.mp hw with hw | hw
      · have hwl : w ∈ l := by
          rcases hx with ⟨-, rfl, -⟩ | ⟨f, rfl, rfl⟩
          · exact absurd hw List.not_mem_nil
          · exact hw
        refine hbefore _ _ w (by simp [hwl]) fun hwy ↦ ?_
        rcases hyr with hy0 | hyr
        · exact hzero w (by simp [hwl]) (hwy.trans hy0)
        · exact hdisjoint w hwl y hyr hwy
      · rcases hy with ⟨-, rfl, -⟩ | ⟨b, rfl, rfl⟩
        · exact absurd hw List.not_mem_nil
        rcases List.mem_append.mp hw with hw | hw
        · have hb := (List.nodup_cons.mp (List.nodup_cons.mp (List.nodup_append.mp hnodup).2.1).2).1
          exact hbefore _ _ w (by simp [hw]) fun hwy ↦ hb (hwy ▸ hw)
        · rw [List.mem_singleton.mp hw]
          simp [State.before]
  · exact hnodup.sublist (by simp)
  · refine link_frame (fun hx0 hxz ↦ hz ⟨x, ?_, hxz⟩) fun hy0 hyz ↦ hz ⟨y, ?_, hyz⟩
    · exact List.mem_append_left _ (hxl.resolve_left hx0)
    · exact List.mem_append_right _ (hyr.resolve_left hy0)

/-! ### Putting a block in front -/

/-- The memory after `add_to_free_list (q)`. -/
def pushed (s : State) (q : ℕ) : Bytes :=
  let m := (s.mem.store q 8 s.freeListp).store (q + DSIZE) 8 0
  if s.freeListp = 0 then m else m.store (s.freeListp + DSIZE) 8 q

/-- `add_to_free_list` puts a block in front. -/
theorem addToFreeList_eq (hcells : Cells s (q :: fl)) (hp : s.freeListp = 0 ∨ s.freeListp ∈ fl) :
    addToFreeList s q = some { s with mem := pushed s q, freeListp := q } := by
  have hq : q ∈ q :: fl := List.mem_cons_self
  have hsecond : ∀ m, setPrevFree { s with mem := m } q 0 =
      some { s with mem := m.store (q + DSIZE) 8 0 } := fun m ↦
    store_eq (s := { s with mem := m }) (hcells.prev_arena hq) 0
  simp only [addToFreeList, setNextFree, store_eq (hcells.next_arena hq), Option.bind_eq_bind,
    Option.bind_some, hsecond, pushed]
  by_cases hzero : s.freeListp = 0
  · rw [if_neg (not_not.mpr hzero), if_pos hzero]
    rfl
  · have harena := hcells.prev_arena (List.mem_cons_of_mem q (hp.resolve_left hzero))
    have hthird : ∀ m, setPrevFree { s with mem := m } s.freeListp q =
        some { s with mem := m.store (s.freeListp + DSIZE) 8 q } := fun m ↦
      store_eq (s := { s with mem := m }) harena q
    rw [if_pos hzero, if_neg hzero, hthird]
    rfl

section Pushed

variable (hcells : Cells s (q :: fl)) (hp : s.freeListp = 0 ∨ s.freeListp ∈ fl) (hq : q ∉ fl)
include hcells hp hq

/-- The first block of the list is apart from the one that is put in front. -/
theorem head_apart (hzero : s.freeListp ≠ 0) :
    s.freeListp + 16 ≤ q ∨ q + 16 ≤ s.freeListp := by
  have hhead := hp.resolve_left hzero
  refine hcells.apart _ (List.mem_cons_of_mem q hhead) q List.mem_cons_self fun heq ↦ ?_
  exact hq (heq ▸ hhead)

theorem pushed_next (hlt : s.freeListp < 256 ^ 8) : (pushed s q).load q 8 = s.freeListp := by
  have hapart := head_apart hcells hp hq
  simp only [pushed]
  unfold DSIZE
  split_ifs with hzero
  · rw [Bytes.load_store_of_apart (by omega), Bytes.load_store_self, Nat.mod_eq_of_lt hlt]
  · have hne := hapart hzero
    rw [Bytes.load_store_of_apart (by omega), Bytes.load_store_of_apart (by omega),
      Bytes.load_store_self, Nat.mod_eq_of_lt hlt]

theorem pushed_prev : (pushed s q).load (q + DSIZE) 8 = 0 := by
  have hapart := head_apart hcells hp hq
  simp only [pushed]
  unfold DSIZE
  split_ifs with hzero
  · rw [Bytes.load_store_self, Nat.zero_mod]
  · have hne := hapart hzero
    rw [Bytes.load_store_of_apart (by omega), Bytes.load_store_self, Nat.zero_mod]

/-- The links that leave listed blocks stay. -/
theorem pushed_next_of_mem (hx : x ∈ fl) : (pushed s q).load x 8 = s.mem.load x 8 := by
  have hxq := hcells.apart x (List.mem_cons_of_mem q hx) q List.mem_cons_self
    (fun heq ↦ hq (heq ▸ hx))
  have hxp := hcells.eq_or_apart (List.mem_cons_of_mem q hx)
    (hp.imp_right (List.mem_cons_of_mem q))
  simp only [pushed]
  unfold DSIZE
  split_ifs with hzero
  · rw [Bytes.load_store_of_apart (by omega), Bytes.load_store_of_apart (by omega)]
  · have hne := hxp hzero
    rw [Bytes.load_store_of_apart (by omega), Bytes.load_store_of_apart (by omega),
      Bytes.load_store_of_apart (by omega)]

/-- The links that enter listed blocks but the first stay. -/
theorem pushed_prev_of_mem (hx : x ∈ fl) (hne : x ≠ s.freeListp) :
    (pushed s q).load (x + DSIZE) 8 = s.mem.load (x + DSIZE) 8 := by
  have hxq := hcells.apart x (List.mem_cons_of_mem q hx) q List.mem_cons_self
    (fun heq ↦ hq (heq ▸ hx))
  have hxp := hcells.eq_or_apart (List.mem_cons_of_mem q hx)
    (hp.imp_right (List.mem_cons_of_mem q))
  simp only [pushed]
  unfold DSIZE
  split_ifs with hzero
  · rw [Bytes.load_store_of_apart (by omega), Bytes.load_store_of_apart (by omega)]
  · have hapart := hxp hzero
    rw [Bytes.load_store_of_apart (by omega), Bytes.load_store_of_apart (by omega),
      Bytes.load_store_of_apart (by omega)]

end Pushed

/-- Putting a block in front changes its links and those of the first block only. -/
theorem pushed_frame {z : ℕ} (hp : s.freeListp = 0 ∨ s.freeListp ∈ fl)
    (hz : ¬LinksOf (q :: fl) z) : pushed s q z = s.mem z := by
  have hzq : ¬(q ≤ z ∧ z < q + 16) := fun h ↦ hz ⟨q, List.mem_cons_self, h⟩
  have hzp : s.freeListp ≠ 0 → ¬(s.freeListp ≤ z ∧ z < s.freeListp + 16) := fun hzero h ↦
    hz ⟨s.freeListp, List.mem_cons_of_mem q (hp.resolve_left hzero), h⟩
  simp only [pushed]
  unfold DSIZE
  split_ifs with hzero
  · rw [Bytes.store_of_not_mem (by omega), Bytes.store_of_not_mem (by omega)]
  · have hne := hzp hzero
    rw [Bytes.store_of_not_mem (by omega), Bytes.store_of_not_mem (by omega),
      Bytes.store_of_not_mem (by omega)]

/-- The list starts at `free_listp`. -/
theorem Linked.head (h : Linked s fl) : s.freeListp = fl.headD 0 := by
  have hlinks := h.links
  cases fl with
  | nil => exact Option.some.inj (links_cons_cons.mp hlinks).1.1
  | cons c fl => exact Option.some.inj (links_cons_cons.mp hlinks).1.1

theorem Linked.head_mem (h : Linked s fl) : s.freeListp = 0 ∨ s.freeListp ∈ fl := by
  rw [h.head]
  cases fl with
  | nil => exact Or.inl rfl
  | cons c fl => exact Or.inr List.mem_cons_self

/-- `add_to_free_list` puts a block in front of the list. -/
theorem addToFreeList_spec (hs : s.Placed) (h : Linked s fl) (hcells : Cells s (q :: fl))
    (hq : q ∉ fl) : ∃ m,
      addToFreeList s q = some { s with mem := m, freeListp := q } ∧
      Linked { s with mem := m, freeListp := q } (q :: fl) ∧
      ∀ z, ¬LinksOf (q :: fl) z → m z = s.mem z := by
  have hp := h.head_mem
  have hq0 := hcells.ne_zero hs List.mem_cons_self
  have hzero : ∀ w ∈ fl, w ≠ 0 := fun w hw ↦ hcells.ne_zero hs (List.mem_cons_of_mem q hw)
  have hplt : s.freeListp < 256 ^ 8 := by
    rcases hp with hp | hp
    · rw [hp]
      decide
    · exact hcells.lt hs (List.mem_cons_of_mem q hp)
  refine ⟨pushed s q, addToFreeList_eq hcells hp, ⟨?_, List.nodup_cons.mpr ⟨hq, h.nodup⟩⟩,
    fun z hz ↦ pushed_frame hp hz⟩
  have hnext := pushed_next hcells hp hq hplt
  have hprev := pushed_prev hcells hp hq
  have hafter : ∀ w ∈ fl, State.after { s with mem := pushed s q, freeListp := q } w =
      s.after w := by
    intro w hw
    simp only [State.after, if_neg (hzero w hw), pushed_next_of_mem hcells hp hq hw]
  have hqafter : State.after { s with mem := pushed s q, freeListp := q } q =
      some s.freeListp := by
    simp only [State.after, if_neg hq0, hnext]
  have hqbefore : ∀ last, State.before { s with mem := pushed s q, freeListp := q } last q =
      some 0 := by
    intro last
    simp only [State.before, if_neg hq0, hprev]
  have hlinks := h.links
  have hhead := h.head
  cases fl with
  | nil =>
    change s.freeListp = 0 at hhead
    refine links_cons_cons.mpr ⟨⟨rfl, hqbefore _⟩, links_cons_cons.mpr ⟨⟨?_, rfl⟩,
      links_singleton⟩⟩
    rw [hqafter, hhead]
  | cons c fl =>
    change s.freeListp = c at hhead
    have hc0 := hzero c List.mem_cons_self
    have hring : Links s.after (s.before _) ([] ++ 0 :: c :: (fl ++ [0])) := hlinks
    refine hring.insert rfl ?_ ?_ ?_ (fun w hw ↦ ?_) fun w hw ↦ ?_
    · exact hqbefore _
    · rw [hqafter, hhead]
    · have hcq := head_apart hcells hp hq (hhead.symm ▸ hc0)
      have hlt := hcells.lt hs List.mem_cons_self
      simp only [State.before, if_neg hc0, pushed, hhead, Bytes.load_store_self,
        Nat.mod_eq_of_lt hlt]
    · rw [List.nil_append, ← List.cons_append, List.dropLast_concat] at hw
      exact hafter w hw
    · rw [List.nil_append, List.tail_cons, List.nil_append] at hw
      rcases List.mem_append.mp hw with hw | hw
      · have hwc : w ≠ c := fun heq ↦ (List.nodup_cons.mp h.nodup).1 (heq ▸ hw)
        have hmem := List.mem_cons_of_mem c hw
        simp only [State.before, if_neg (hzero w hmem),
          pushed_prev_of_mem hcells hp hq hmem (hhead.symm ▸ hwc)]
      · rw [List.mem_singleton.mp hw]
        rfl

end Jungle.MallocLab
