import Jungle.Arenas.Layout

/-!
# What happens to arenas

A block moves from a free list to the live ones or back (`Consistent.move`), an arena is made of fresh
pages (`Consistent.add`) and goes with them (`Consistent.remove`).
-/

set_option autoImplicit false
set_option relaxedAutoImplicit false

namespace Jungle.Arenas

open Jungle.Lib Jungle.KernelList Jungle.Pages

variable {lists : DescId → KList} {s s' : State} {live live' : List Block} {Q Q' : DescId → List ℕ}
  {kinds : Kinds} {elems elems' : Elems} {a a' b n cnt i : ℕ} {d d' : DescId} {L : List ℕ}
  {arena arena' : Arena}

/-! ### Counting free blocks -/

theorem freeCount_congr (h : ∀ i < (desc d).blocksPerArena,
    (blockAt a d i ∈ Q' d ↔ blockAt a d i ∈ Q d)) : freeCount Q' a d = freeCount Q a d := by
  refine congrArg Finset.card (Finset.filter_congr fun i hi ↦ h i (Finset.mem_range.mp hi))

theorem freeCount_le (Q : DescId → List ℕ) (a : ℕ) (d : DescId) :
    freeCount Q a d ≤ (desc d).blocksPerArena := by
  have hle := Finset.card_filter_le (Finset.range (desc d).blocksPerArena)
    fun i ↦ blockAt a d i ∈ Q d
  rwa [Finset.card_range] at hle

/-- All blocks of an arena are free when as many are as it has. -/
theorem mem_of_freeCount (h : freeCount Q a d = (desc d).blocksPerArena)
    (hi : i < (desc d).blocksPerArena) : blockAt a d i ∈ Q d := by
  have hcard : ((Finset.range (desc d).blocksPerArena).filter fun i ↦ blockAt a d i ∈ Q d).card =
      (Finset.range (desc d).blocksPerArena).card := by
    rw [Finset.card_range]
    exact h
  exact (Finset.card_filter_eq_iff.mp hcard) i (Finset.mem_range.mpr hi)

/-- One more block is free. -/
theorem freeCount_insert (hi : i < (desc d).blocksPerArena) (hin : blockAt a d i ∈ Q' d)
    (hout : blockAt a d i ∉ Q d) (hsame : ∀ x, x ≠ blockAt a d i → (x ∈ Q' d ↔ x ∈ Q d)) :
    freeCount Q' a d = freeCount Q a d + 1 := by
  have hinsert : ((Finset.range (desc d).blocksPerArena).filter fun j ↦ blockAt a d j ∈ Q' d) =
      insert i ((Finset.range (desc d).blocksPerArena).filter fun j ↦ blockAt a d j ∈ Q d) := by
    ext j
    rw [Finset.mem_insert, Finset.mem_filter, Finset.mem_filter, Finset.mem_range]
    by_cases hij : j = i
    · subst hij
      exact ⟨fun _ ↦ Or.inl rfl, fun _ ↦ ⟨hi, hin⟩⟩
    · rw [hsame _ fun heq ↦ hij (blockAt_inj heq), or_iff_right hij]
  have hnot : i ∉ (Finset.range (desc d).blocksPerArena).filter fun j ↦ blockAt a d j ∈ Q d :=
    fun hmem ↦ hout (Finset.mem_filter.mp hmem).2
  rw [freeCount, hinsert, Finset.card_insert_of_notMem hnot, freeCount]

/-! ### Changing counters and lists -/

/-- Counting free blocks does not change the kind of an arena of small blocks. -/
theorem kinds_put (h : s.arenas a = some arena) (hkind : arena'.kind = arena.kind)
    (harenas : s'.arenas = s.arenas.put a arena') : s'.kinds = s.kinds := by
  ext1 x
  rw [State.kinds, harenas, Store.put_apply]
  split_ifs with hx
  · rw [hx, Option.map_some, hkind, State.kinds, h, Option.map_some]
  · rfl

theorem kind_small (hd : arena.desc = some d) (n : ℕ) :
    Arena.kind { arena with freeCnt := n } = arena.kind := by
  simp only [Arena.kind, Arena.pages, hd, Option.isSome_some, if_true]

theorem Layout.congr (h : Layout lists elems kinds)
    (hcells : ∀ x, (elems' x).isSome = (elems x).isSome) : Layout lists elems' kinds where
  page := h.page
  small := h.small
  big := h.big
  memory a d n ha x hx := by
    rw [hcells]
    exact h.memory a d n ha x hx
  headers := h.headers
  apart := h.apart

/-- A block moves: it is on the free list after that if and only if it is not live. -/
theorem Consistent.move (hs : Consistent lists s live Q) (harena : s.arenas a = some arena)
    (hd : arena.desc = some d) (hi : i < (desc d).blocksPerArena)
    (hholds : Holds lists s'.elems (Function.update Q d L))
    (hcells : ∀ x, (s'.elems x).isSome = (s.elems x).isSome)
    (harenas : s'.arenas = s.arenas.put a
      { arena with freeCnt := freeCount (Function.update Q d L) a d })
    (hL : ∀ x, x ≠ blockAt a d i → (x ∈ L ↔ x ∈ Q d))
    (hlive : ∀ x, x ≠ blockAt a d i → (x ∈ live'.map Block.addr ↔ x ∈ live.map Block.addr))
    (hblock : blockAt a d i ∈ L ↔ blockAt a d i ∉ live'.map Block.addr)
    (hfits : ∀ x ∈ live', 0 < x.size ∧ Fits s.kinds x) (hnodup : (live'.map Block.addr).Nodup) :
    Consistent lists s' live' (Function.update Q d L) := by
  have hkind := kinds_small harena hd
  have hkinds : s'.kinds = s.kinds := kinds_put harena (kind_small hd _) harenas
  have hother : ∀ a' d' n' j, s.kinds a' = some (some d', n') → j < (desc d').blocksPerArena →
      a' ≠ a ∨ d' ≠ d ∨ j ≠ i → (blockAt a' d' j ∈ Function.update Q d L d' ↔
        blockAt a' d' j ∈ Q d') ∧ blockAt a' d' j ≠ blockAt a d i := by
    intro a' d' n' j hkind' hj hne
    have hblockne : blockAt a' d' j ≠ blockAt a d i := by
      intro heq
      obtain ⟨haa, hdd, hji⟩ := hs.layout.blockAt_unique hkind' hkind hj hi heq
      exact hne.elim (absurd haa) fun h ↦ h.elim (absurd hdd) (absurd hji)
    refine ⟨?_, hblockne⟩
    by_cases hdd : d' = d
    · subst hdd
      rw [Function.update_self]
      exact hL _ hblockne
    · rw [Function.update_of_ne hdd]
  refine ⟨hholds, ?_, ?_, fun a' arena' h' ↦ ?_, fun a' arena' d' h' hd' ↦ ?_⟩
  · rw [hkinds]
    exact hs.layout.congr hcells
  · rw [hkinds]
    refine ⟨fun a' d' n' hkind' j hj ↦ ?_, fun d' x hx ↦ ?_, hfits, fun a' n' hbig ↦ ?_, hnodup⟩
    · by_cases hsame : a' = a ∧ d' = d ∧ j = i
      · obtain ⟨rfl, rfl, rfl⟩ := hsame
        rw [Function.update_self]
        exact hblock
      · obtain ⟨hmem, hne⟩ := hother a' d' n' j hkind' hj (by tauto)
        rw [hmem, hlive _ hne]
        exact hs.blocks.free a' d' n' hkind' j hj
    · by_cases hdd : d' = d
      · subst hdd
        rw [Function.update_self] at hx
        by_cases hxb : x = blockAt a d' i
        · exact ⟨a, 1, i, hkind, hi, hxb⟩
        · exact hs.blocks.freeBlocks d' x ((hL x hxb).mp hx)
      · rw [Function.update_of_ne hdd] at hx
        exact hs.blocks.freeBlocks d' x hx
    · exact (hlive _ (hs.layout.blockAt_ne_big hkind hbig hi).symm).mpr
        (hs.blocks.bigBlocks a' n' hbig)
  · rw [harenas, Store.put_apply] at h'
    split_ifs at h' with haa
    · obtain rfl := Option.some.inj h'
      exact hs.magic a arena harena
    · exact hs.magic a' arena' h'
  · rw [harenas, Store.put_apply] at h'
    split_ifs at h' with haa
    · obtain rfl := Option.some.inj h'
      obtain rfl : d = d' := Option.some.inj (hd.symm.trans hd')
      rw [haa]
    · rw [hs.count a' arena' d' h' hd']
      exact (freeCount_congr fun j hj ↦
        (hother a' d' 1 j (kinds_small h' hd') hj (Or.inl haa)).1).symm

/-! ### New arenas -/

theorem kinds_add (harenas : s'.arenas = s.arenas.put a arena) :
    s'.kinds = Function.update s.kinds a (some arena.kind) := by
  ext1 x
  rw [State.kinds, harenas, Store.put_apply, Function.update_apply]
  split_ifs <;> rfl

theorem kinds_free (harenas : s'.arenas = s.arenas.free a) :
    s'.kinds = Function.update s.kinds a none := by
  ext1 x
  rw [State.kinds, harenas, Store.free_apply, Function.update_apply]
  split_ifs <;> rfl

/-- Pages that `palloc` may return: whole pages that hold no cell. -/
def FreshPages (elems : Elems) (a n : ℕ) : Prop :=
  a % PGSIZE = 0 ∧ a ≠ 0 ∧ ∀ x, InRange a (PGSIZE * n) x → elems x = none

theorem not_inRange_of_fresh (hfresh : FreshPages elems a n) {x : ℕ} (hx : (elems x).isSome) :
    ¬InRange a (PGSIZE * n) x := by
  intro hin
  rw [hfresh.2.2 x hin] at hx
  exact absurd hx (by decide)

/-- An address that starts no arena yet. -/
theorem Layout.fresh (h : Layout lists elems kinds) (hfresh : FreshPages elems a n) (hn : 0 < n) :
    kinds a = none := by
  by_contra hne
  obtain ⟨⟨d, m⟩, hk⟩ := Option.ne_none_iff_exists'.mp hne
  have hm : 0 < m := by
    cases d with
    | none => exact (h.big a m hk).1
    | some d => exact (h.small a d m hk).symm ▸ Nat.zero_lt_one
  have hself : ∀ k, 0 < k → InRange a (PGSIZE * k) a := fun k hk ↦
    ⟨Nat.le_refl a, Nat.lt_add_of_pos_right (Nat.mul_pos (by decide) hk)⟩
  exact not_inRange_of_fresh hfresh (h.memory a d m hk a (hself m hm)) (hself n hn)

/-- Fresh pages become an arena. -/
theorem Layout.add (h : Layout lists elems kinds) {e : Option DescId} (hfresh : FreshPages elems a n)
    (hsmall : ∀ d, e = some d → n = 1) (hbig : e = none → 0 < n ∧ PGSIZE * n < sizeMod)
    (hheaders : ∀ e, (elems (lists e).head).isSome ∧ (elems (lists e).tail).isSome)
    (hcells : ∀ x, InRange a (PGSIZE * n) x → (elems' x).isSome)
    (hsame : ∀ x, ¬InRange a (PGSIZE * n) x → elems' x = elems x) :
    Layout lists elems' (Function.update kinds a (some (e, n))) := by
  have hold : ∀ a' d' n', a' ≠ a → Function.update kinds a (some (e, n)) a' = some (d', n') →
      kinds a' = some (d', n') := fun a' d' n' hne hk ↦ by rwa [Function.update_of_ne hne] at hk
  have hnew : ∀ {d' n'}, Function.update kinds a (some (e, n)) a = some (d', n') →
      e = d' ∧ n = n' := fun hk ↦ by
    rw [Function.update_self] at hk
    exact Prod.mk.inj (Option.some.inj hk)
  have hclear : ∀ a' d' n', kinds a' = some (d', n') → ∀ x, InRange a' (PGSIZE * n') x →
      ¬InRange a (PGSIZE * n) x := fun a' d' n' hk x hx ↦
    not_inRange_of_fresh hfresh (h.memory a' d' n' hk x hx)
  refine ⟨fun a' d' n' hk ↦ ?_, fun a' d' n' hk ↦ ?_, fun a' n' hk ↦ ?_, fun a' d' n' hk x hx ↦ ?_,
    fun a' d' n' hk x hx g ↦ ?_, fun a₁ d₁ n₁ a₂ d₂ n₂ hk₁ hk₂ hne x hx₁ hx₂ ↦ ?_⟩
  · by_cases haa : a' = a
    · exact haa ▸ ⟨hfresh.1, hfresh.2.1⟩
    · exact h.page a' d' n' (hold a' _ n' haa hk)
  · by_cases haa : a' = a
    · subst haa
      exact (hnew hk).2 ▸ hsmall d' (hnew hk).1
    · exact h.small a' d' n' (hold a' _ n' haa hk)
  · by_cases haa : a' = a
    · subst haa
      exact (hnew hk).2 ▸ hbig (hnew hk).1
    · exact h.big a' n' (hold a' _ n' haa hk)
  · by_cases haa : a' = a
    · subst haa
      exact hcells x ((hnew hk).2 ▸ hx)
    · have hk' := hold a' _ n' haa hk
      rw [hsame x (hclear a' d' n' hk' x hx)]
      exact h.memory a' d' n' hk' x hx
  · by_cases haa : a' = a
    · subst haa
      have hin : InRange a' (PGSIZE * n) x := (hnew hk).2 ▸ hx
      refine ⟨fun heq ↦ ?_, fun heq ↦ ?_⟩
      · exact not_inRange_of_fresh hfresh (hheaders g).1 (heq ▸ hin)
      · exact not_inRange_of_fresh hfresh (hheaders g).2 (heq ▸ hin)
    · exact h.headers a' d' n' (hold a' _ n' haa hk) x hx g
  · by_cases h₁ : a₁ = a
    · subst h₁
      have hk₂' := hold a₂ _ n₂ hne.symm hk₂
      exact hclear a₂ d₂ n₂ hk₂' x hx₂ ((hnew hk₁).2 ▸ hx₁)
    · have hk₁' := hold a₁ _ n₁ h₁ hk₁
      by_cases h₂ : a₂ = a
      · subst h₂
        exact hclear a₁ d₁ n₁ hk₁' x hx₁ ((hnew hk₂).2 ▸ hx₂)
      · exact h.apart a₁ d₁ n₁ a₂ d₂ n₂ hk₁' (hold a₂ _ n₂ h₂ hk₂) hne x hx₁ hx₂

/-- The pages of an arena are given back. -/
theorem Layout.remove (h : Layout lists elems kinds) {e : Option DescId} (ha : kinds a = some (e, n))
    (hsame : ∀ x, ¬InRange a (PGSIZE * n) x → elems' x = elems x) :
    Layout lists elems' (Function.update kinds a none) := by
  have hold : ∀ a' k, Function.update kinds a none a' = some k → a' ≠ a ∧ kinds a' = some k := by
    intro a' k hk
    have hne : a' ≠ a := by
      rintro rfl
      rw [Function.update_self] at hk
      exact absurd hk.symm (Option.some_ne_none k)
    exact ⟨hne, by rwa [Function.update_of_ne hne] at hk⟩
  refine ⟨fun a' d' n' hk ↦ h.page a' d' n' (hold a' _ hk).2,
    fun a' d' n' hk ↦ h.small a' d' n' (hold a' _ hk).2, fun a' n' hk ↦ h.big a' n' (hold a' _ hk).2,
    fun a' d' n' hk x hx ↦ ?_, fun a' d' n' hk ↦ h.headers a' d' n' (hold a' _ hk).2,
    fun a₁ d₁ n₁ a₂ d₂ n₂ hk₁ hk₂ ↦ h.apart a₁ d₁ n₁ a₂ d₂ n₂ (hold a₁ _ hk₁).2 (hold a₂ _ hk₂).2⟩
  obtain ⟨hne, hk'⟩ := hold a' _ hk
  rw [hsame x (h.apart a' d' n' a e n hk' ha hne x hx)]
  exact h.memory a' d' n' hk' x hx

/-! ### The blocks of arenas that come and go -/

theorem Fits.mono {kinds' : Kinds} {x : Block} (h : Fits kinds x)
    (hkinds : ∀ a k, kinds a = some k → kinds' a = some k) : Fits kinds' x := by
  rcases h with ⟨a, d, n, i, hk, hrest⟩ | ⟨a, n, hk, hrest⟩
  · exact Or.inl ⟨a, d, n, i, hkinds a _ hk, hrest⟩
  · exact Or.inr ⟨a, n, hkinds a _ hk, hrest⟩

/-- The addresses of a live block are in its arena. -/
theorem Fits.range {x : Block} (h : Fits kinds x) (hlayout : Layout lists elems kinds) :
    ∃ a d n, kinds a = some (d, n) ∧ ∀ y, InRange x.addr x.size y → InRange a (PGSIZE * n) y := by
  rcases h with ⟨a, d, n, i, hk, hi, haddr, hsize⟩ | ⟨a, n, hk, haddr, hsize⟩
  · refine ⟨a, some d, n, hk, fun y hy ↦ hlayout.block_range hk hi ?_⟩
    simp only [InRange, haddr] at hy ⊢
    omega
  · refine ⟨a, none, n, hk, fun y hy ↦ ?_⟩
    simp only [InRange, haddr] at hy ⊢
    omega

theorem inRange_self {start size : ℕ} (hsize : 0 < size) : InRange start size start :=
  ⟨Nat.le_refl start, Nat.lt_add_of_pos_right hsize⟩

/-- A live block is at addresses that hold cells. -/
theorem Blocks.live_isSome (h : Blocks kinds live Q) (hlayout : Layout lists elems kinds) {x : ℕ}
    (hx : x ∈ live.map Block.addr) : (elems x).isSome := by
  obtain ⟨y, hy, rfl⟩ := List.mem_map.mp hx
  obtain ⟨hsize, hfits⟩ := h.liveBlocks y hy
  obtain ⟨a, d, n, hk, hrange⟩ := hfits.range hlayout
  exact hlayout.memory a d n hk _ (hrange _ (inRange_self hsize))

theorem Blocks.addBig (h : Blocks kinds live Q) (hlayout : Layout lists elems kinds)
    (hfresh : FreshPages elems a n) (hn : 0 < n)
    (hlayout' : Layout lists elems' (Function.update kinds a (some (none, n)))) {size : ℕ}
    (hsize : 0 < size) (hfits : size + arenaSize ≤ PGSIZE * n) :
    Blocks (Function.update kinds a (some (none, n))) (⟨a + arenaSize, size⟩ :: live) Q := by
  have hnone := hlayout.fresh hfresh hn
  have hself : Function.update kinds a (some (none, n)) a = some (none, n) := Function.update_self ..
  have hmono : ∀ a' k, kinds a' = some k → Function.update kinds a (some (none, n)) a' = some k := by
    intro a' k hk
    have hne : a' ≠ a := by
      rintro rfl
      exact absurd (hnone.symm.trans hk).symm (Option.some_ne_none k)
    rwa [Function.update_of_ne hne]
  have hold : ∀ a' k, a' ≠ a → Function.update kinds a (some (none, n)) a' = some k →
      kinds a' = some k := fun a' k hne hk ↦ by rwa [Function.update_of_ne hne] at hk
  refine ⟨fun a' d' n' hk i hi ↦ ?_, fun d x hx ↦ ?_, fun x hx ↦ ?_, fun a' n' hk ↦ ?_, ?_⟩
  · have hne : a' ≠ a := by
      rintro rfl
      have heq := Option.some.inj (hself.symm.trans hk)
      exact absurd (congrArg Prod.fst heq).symm (Option.some_ne_none d')
    rw [List.map_cons, List.mem_cons, not_or, and_iff_right (hlayout'.blockAt_ne_big hk hself hi)]
    exact h.free a' d' n' (hold a' _ hne hk) i hi
  · obtain ⟨a', n', i, hk, hrest⟩ := h.freeBlocks d x hx
    exact ⟨a', n', i, hmono a' _ hk, hrest⟩
  · rcases List.mem_cons.mp hx with rfl | hx
    · exact ⟨hsize, Or.inr ⟨a, n, hself, rfl, hfits⟩⟩
    · exact ⟨(h.liveBlocks x hx).1, (h.liveBlocks x hx).2.mono hmono⟩
  · rw [List.map_cons, List.mem_cons]
    by_cases hne : a' = a
    · exact Or.inl (hne ▸ rfl)
    · exact Or.inr (h.bigBlocks a' n' (hold a' _ hne hk))
  · refine List.nodup_cons.mpr ⟨fun hmem ↦ ?_, h.nodup⟩
    refine not_inRange_of_fresh hfresh (h.live_isSome hlayout hmem) ?_
    simp only [InRange]
    omega

theorem Blocks.addSmall (h : Blocks kinds live Q) (hlayout : Layout lists elems kinds)
    (hfresh : FreshPages elems a 1)
    (hlayout' : Layout lists elems' (Function.update kinds a (some (some d, 1))))
    (hL : ∀ x, x ∈ L ↔ x ∈ Q d ∨ ∃ i < (desc d).blocksPerArena, x = blockAt a d i) :
    Blocks (Function.update kinds a (some (some d, 1))) live (Function.update Q d L) := by
  have hnone := hlayout.fresh hfresh Nat.zero_lt_one
  have hself : Function.update kinds a (some (some d, 1)) a = some (some d, 1) :=
    Function.update_self ..
  have hmono : ∀ a' k, kinds a' = some k →
      Function.update kinds a (some (some d, 1)) a' = some k := by
    intro a' k hk
    have hne : a' ≠ a := by
      rintro rfl
      exact absurd (hnone.symm.trans hk).symm (Option.some_ne_none k)
    rwa [Function.update_of_ne hne]
  have hold : ∀ a' k, a' ≠ a → Function.update kinds a (some (some d, 1)) a' = some k →
      kinds a' = some k := fun a' k hne hk ↦ by rwa [Function.update_of_ne hne] at hk
  refine ⟨fun a' d' n' hk i hi ↦ ?_, fun d' x hx ↦ ?_,
    fun x hx ↦ ⟨(h.liveBlocks x hx).1, (h.liveBlocks x hx).2.mono hmono⟩, fun a' n' hk ↦ ?_,
    h.nodup⟩
  · by_cases hne : a' = a
    · subst hne
      obtain rfl : d = d' := by
        have heq := Option.some.inj (hself.symm.trans hk)
        exact Option.some.inj (congrArg Prod.fst heq)
      rw [Function.update_self, hL]
      refine ⟨fun _ hmem ↦ ?_, fun _ ↦ Or.inr ⟨i, hi, rfl⟩⟩
      refine not_inRange_of_fresh hfresh (h.live_isSome hlayout hmem) ?_
      rw [Nat.mul_one]
      exact blockAt_inRange hi (blockAt_self a' d i)
    · rw [← h.free a' d' n' (hold a' _ hne hk) i hi]
      by_cases hd : d' = d
      · subst hd
        rw [Function.update_self, hL, or_iff_left]
        rintro ⟨j, hj, heq⟩
        exact hne (hlayout'.blockAt_unique hk hself hi hj heq).1
      · rw [Function.update_of_ne hd]
  · by_cases hd : d' = d
    · subst hd
      rw [Function.update_self, hL] at hx
      rcases hx with hx | ⟨i, hi, rfl⟩
      · obtain ⟨a', n', i, hk, hrest⟩ := h.freeBlocks d' x hx
        exact ⟨a', n', i, hmono a' _ hk, hrest⟩
      · exact ⟨a, 1, i, hself, hi, rfl⟩
    · rw [Function.update_of_ne hd] at hx
      obtain ⟨a', n', i, hk, hrest⟩ := h.freeBlocks d' x hx
      exact ⟨a', n', i, hmono a' _ hk, hrest⟩
  · refine h.bigBlocks a' n' (hold a' _ ?_ hk)
    rintro rfl
    have heq := Option.some.inj (hself.symm.trans hk)
    exact absurd (congrArg Prod.fst heq) (Option.some_ne_none d)

theorem Blocks.removeSmall (h : Blocks kinds live Q) (hlayout : Layout lists elems kinds)
    (ha : kinds a = some (some d, n))
    (hall : ∀ i < (desc d).blocksPerArena, blockAt a d i ∈ Q d)
    (hL : ∀ x, x ∈ L ↔ x ∈ Q d ∧ ∀ i < (desc d).blocksPerArena, x ≠ blockAt a d i) :
    Blocks (Function.update kinds a none) live (Function.update Q d L) := by
  have hold : ∀ a' k, Function.update kinds a none a' = some k → a' ≠ a ∧ kinds a' = some k := by
    intro a' k hk
    have hne : a' ≠ a := by
      rintro rfl
      rw [Function.update_self] at hk
      exact absurd hk.symm (Option.some_ne_none k)
    exact ⟨hne, by rwa [Function.update_of_ne hne] at hk⟩
  have hkeep : ∀ a' k, a' ≠ a → kinds a' = some k → Function.update kinds a none a' = some k :=
    fun a' k hne hk ↦ by rwa [Function.update_of_ne hne]
  refine ⟨fun a' d' n' hk i hi ↦ ?_, fun d' x hx ↦ ?_, fun x hx ↦ ?_,
    fun a' n' hk ↦ h.bigBlocks a' n' (hold a' _ hk).2, h.nodup⟩
  · obtain ⟨hne, hk'⟩ := hold a' _ hk
    rw [← h.free a' d' n' hk' i hi]
    by_cases hd : d' = d
    · subst hd
      rw [Function.update_self, hL, and_iff_left]
      exact fun j hj heq ↦ hne (hlayout.blockAt_unique hk' ha hi hj heq).1
    · rw [Function.update_of_ne hd]
  · by_cases hd : d' = d
    · subst hd
      rw [Function.update_self, hL] at hx
      obtain ⟨a', n', i, hk, hi, rfl⟩ := h.freeBlocks d' x hx.1
      refine ⟨a', n', i, hkeep a' _ ?_ hk, hi, rfl⟩
      rintro rfl
      exact hx.2 i hi rfl
    · rw [Function.update_of_ne hd] at hx
      obtain ⟨a', n', i, hk, hi, rfl⟩ := h.freeBlocks d' x hx
      refine ⟨a', n', i, hkeep a' _ ?_ hk, hi, rfl⟩
      rintro rfl
      have heq := Option.some.inj (ha.symm.trans hk)
      exact hd (Option.some.inj (congrArg Prod.fst heq)).symm
  · obtain ⟨hsize, hfits⟩ := h.liveBlocks x hx
    refine ⟨hsize, ?_⟩
    rcases hfits with ⟨a', d', n', i, hk, hi, haddr, hrest⟩ | ⟨a', n', hk, hrest⟩
    · refine Or.inl ⟨a', d', n', i, hkeep a' _ ?_ hk, hi, haddr, hrest⟩
      rintro rfl
      obtain rfl : d = d' := by
        have heq := Option.some.inj (ha.symm.trans hk)
        exact Option.some.inj (congrArg Prod.fst heq)
      refine (h.free a' d n ha i hi).mp (hall i hi) ?_
      exact haddr ▸ List.mem_map_of_mem hx
    · refine Or.inr ⟨a', n', hkeep a' _ ?_ hk, hrest⟩
      rintro rfl
      have heq := Option.some.inj (ha.symm.trans hk)
      exact absurd (congrArg Prod.fst heq) (Option.some_ne_none d)

/-- The live blocks without the one at an address. -/
def without (live : List Block) (p : ℕ) : List Block := live.filter fun x ↦ decide (x.addr ≠ p)

theorem mem_without {p : ℕ} {x : Block} : x ∈ without live p ↔ x ∈ live ∧ x.addr ≠ p := by
  rw [without, List.mem_filter, decide_eq_true_eq]

theorem mem_map_without {p x : ℕ} :
    x ∈ (without live p).map Block.addr ↔ x ∈ live.map Block.addr ∧ x ≠ p := by
  simp only [List.mem_map, mem_without]
  constructor
  · rintro ⟨y, ⟨hy, hne⟩, rfl⟩
    exact ⟨⟨y, hy, rfl⟩, hne⟩
  · rintro ⟨⟨y, hy, rfl⟩, hne⟩
    exact ⟨y, ⟨hy, hne⟩, rfl⟩

theorem nodup_without (h : (live.map Block.addr).Nodup) (p : ℕ) :
    ((without live p).map Block.addr).Nodup :=
  h.sublist (List.filter_sublist.map Block.addr)

theorem Blocks.removeBig (h : Blocks kinds live Q) (hlayout : Layout lists elems kinds)
    (ha : kinds a = some (none, n)) :
    Blocks (Function.update kinds a none) (without live (a + arenaSize)) Q := by
  have hold : ∀ a' k, Function.update kinds a none a' = some k → a' ≠ a ∧ kinds a' = some k := by
    intro a' k hk
    have hne : a' ≠ a := by
      rintro rfl
      rw [Function.update_self] at hk
      exact absurd hk.symm (Option.some_ne_none k)
    exact ⟨hne, by rwa [Function.update_of_ne hne] at hk⟩
  have hkeep : ∀ a' k, a' ≠ a → kinds a' = some k → Function.update kinds a none a' = some k :=
    fun a' k hne hk ↦ by rwa [Function.update_of_ne hne]
  refine ⟨fun a' d' n' hk i hi ↦ ?_, fun d' x hx ↦ ?_, fun x hx ↦ ?_, fun a' n' hk ↦ ?_,
    nodup_without h.nodup _⟩
  · obtain ⟨hne, hk'⟩ := hold a' _ hk
    rw [h.free a' d' n' hk' i hi, mem_map_without,
      and_iff_left (hlayout.blockAt_ne_big hk' ha hi)]
  · obtain ⟨a', n', i, hk, hrest⟩ := h.freeBlocks d' x hx
    refine ⟨a', n', i, hkeep a' _ ?_ hk, hrest⟩
    rintro rfl
    have heq := Option.some.inj (ha.symm.trans hk)
    exact absurd (congrArg Prod.fst heq).symm (Option.some_ne_none d')
  · obtain ⟨hx, hne⟩ := mem_without.mp hx
    obtain ⟨hsize, hfits⟩ := h.liveBlocks x hx
    refine ⟨hsize, ?_⟩
    rcases hfits with ⟨a', d', n', i, hk, hrest⟩ | ⟨a', n', hk, haddr, hrest⟩
    · refine Or.inl ⟨a', d', n', i, hkeep a' _ ?_ hk, hrest⟩
      rintro rfl
      have heq := Option.some.inj (ha.symm.trans hk)
      exact absurd (congrArg Prod.fst heq).symm (Option.some_ne_none d')
    · refine Or.inr ⟨a', n', hkeep a' _ ?_ hk, haddr, hrest⟩
      rintro rfl
      exact hne haddr
  · obtain ⟨hne, hk'⟩ := hold a' _ hk
    exact mem_map_without.mpr ⟨h.bigBlocks a' n' hk', fun heq ↦ hne (Nat.add_right_cancel heq)⟩

end Jungle.Arenas
