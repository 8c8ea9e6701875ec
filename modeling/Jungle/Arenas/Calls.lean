import Jungle.Arenas.Steps
import Jungle.KernelList.Families

/-!
# Handing out blocks

What `malloc` does to a consistent allocator: it takes a block off a free list, after it has put the
blocks of a fresh page there if the list was empty, or makes an arena of fresh pages for one block.
-/

set_option autoImplicit false
set_option relaxedAutoImplicit false

namespace Jungle.Arenas

open Jungle.Lib Jungle.KernelList Jungle.Pages

variable {lists : DescId → KList} {s s' : State} {live : List Block} {Q : DescId → List ℕ}
  {kinds : Kinds} {a b n size i : ℕ} {d : DescId} {B L : List ℕ} {arena : Arena}

/-- An arena of small blocks has a live block. -/
def Used (kinds : Kinds) (live : List Block) : Prop :=
  ∀ a d n, kinds a = some (some d, n) →
    ∃ i < (desc d).blocksPerArena, blockAt a d i ∈ live.map Block.addr

/-- Not all blocks of an arena with a live block are free. -/
theorem freeCount_lt (hi : i < (desc d).blocksPerArena) (hout : blockAt a d i ∉ Q d) :
    freeCount Q a d < (desc d).blocksPerArena :=
  Nat.lt_of_le_of_ne (freeCount_le Q a d) fun heq ↦ hout (mem_of_freeCount heq hi)

/-- An arena with a free block less than it has has a block that is not free. -/
theorem exists_of_freeCount_lt (hlt : freeCount Q a d < (desc d).blocksPerArena) :
    ∃ i < (desc d).blocksPerArena, blockAt a d i ∉ Q d := by
  by_contra! hall
  refine Nat.ne_of_lt hlt ?_
  rw [freeCount, Finset.filter_true_of_mem fun i hi ↦ hall i (Finset.mem_range.mp hi),
    Finset.card_range]

/-! ### Memory that the lists do not use -/

/-- The heads and the tails are cells. -/
theorem Consistent.headers (hs : Consistent lists s live Q) (e : DescId) :
    (s.elems (lists e).head).isSome ∧ (s.elems (lists e).tail).isSome :=
  ⟨(hs.holds.ring e).allocated List.mem_cons_self, (hs.holds.ring e).allocated (by simp [nodes])⟩

/-- The lists are the same after fresh pages have become memory. -/
theorem Consistent.holds_getPages (hs : Consistent lists s live Q)
    (hfresh : FreshPages s.elems a n) : Holds lists (getPages s a n).elems Q := by
  refine hs.holds.frame fun e x hx ↦ ?_
  exact if_neg (not_inRange_of_fresh hfresh ((hs.holds.ring e).allocated hx))

theorem getPages_isSome {x : ℕ} (hx : InRange a (PGSIZE * n) x) :
    ((getPages s a n).elems x).isSome := by
  simp only [getPages, hx, if_true, Option.isSome_some]

theorem getPages_same {x : ℕ} (hx : ¬InRange a (PGSIZE * n) x) :
    (getPages s a n).elems x = s.elems x :=
  if_neg hx

/-- Free blocks are in memory that the allocator has. -/
theorem Consistent.free_isSome (hs : Consistent lists s live Q) {e : DescId} {x : ℕ}
    (hx : x ∈ Q e) : (s.elems x).isSome :=
  (hs.holds.ring e).allocated (by simp [nodes, hx])

/-! ### Taking a block off a free list -/

/-- A block is taken off a free list. -/
theorem takeBlock_spec (hs : Consistent lists s live Q) (hQ : Q d = b :: B) (hpos : 0 < size)
    (hsize : size ≤ (desc d).blockSize) : ∃ s', takeBlock lists s d = some (b, s') ∧
      Consistent lists s' (⟨b, size⟩ :: live) (Function.update Q d B) ∧ s'.kinds = s.kinds ∧
      s'.bytes = s.bytes ∧ s'.returned = s.returned := by
  have hb : b ∈ Q d := hQ ▸ List.mem_cons_self
  obtain ⟨a, n, i, hk, hi, rfl⟩ := hs.blocks.freeBlocks d b hb
  obtain ⟨arena, harena, hkind⟩ := exists_arena hk
  have hd : arena.desc = some d := congrArg Prod.fst hkind
  obtain ⟨m, hpop, hholds⟩ := holds_popFront hs.holds hQ
  have hnodup : (blockAt a d i :: B).Nodup := by
    have hnodup := hs.holds.wellFormed.nodup d
    rwa [hQ] at hnodup
  have hout : blockAt a d i ∉ B := (List.nodup_cons.mp hnodup).1
  have hfree := (hs.blocks.free a d n hk i hi).mp hb
  have hmem : ∀ x, x ≠ blockAt a d i → (x ∈ B ↔ x ∈ Q d) := fun x hx ↦ by
    rw [hQ, List.mem_cons, or_iff_right hx]
  have hcount : freeCount Q a d = freeCount (Function.update Q d B) a d + 1 := by
    refine freeCount_insert hi hb ?_ fun x hx ↦ ?_
    · rwa [Function.update_self]
    · rw [Function.update_self]
      exact (hmem x hx).symm
  have hcnt : (arena.freeCnt + sizeMod - 1) % sizeMod =
      freeCount (Function.update Q d B) a d := by
    have hlt := (desc_spec d).2.2.2.1
    have hle := freeCount_le (Function.update Q d B) a d
    rw [hs.count a arena d harena hd, hcount, Nat.add_right_comm, Nat.add_sub_cancel,
      Nat.add_mod_right, Nat.mod_eq_of_lt (Nat.lt_of_le_of_lt hle hlt)]
  let s₁ : State := { s with elems := m }
  have hblock : blockToArena s₁ (blockAt a d i) = some (a, arena) :=
    blockToArena_small hs harena hd hi
  let s' : State := { s₁ with
    arenas := s.arenas.put a { arena with freeCnt := (arena.freeCnt + sizeMod - 1) % sizeMod } }
  have harenas : s'.arenas = s.arenas.put a
      { arena with freeCnt := freeCount (Function.update Q d B) a d } := by
    rw [← hcnt]
  refine ⟨s', ?_, ?_, kinds_put harena (kind_small hd _) harenas, rfl, rfl⟩
  · simp only [takeBlock, hpop, Option.bind_eq_bind, Option.bind_some]
    exact congrArg (fun r ↦ r.bind fun r ↦ some (blockAt a d i, { s₁ with
      arenas := s₁.arenas.put r.1 { r.2 with freeCnt := (r.2.freeCnt + sizeMod - 1) % sizeMod } }))
      hblock
  · refine hs.move harena hd hi hholds (listPopFront_allocated hpop) harenas hmem (fun x hx ↦ ?_)
      (iff_of_false hout fun hnot ↦ hnot List.mem_cons_self) (fun x hx ↦ ?_) ?_
    · rw [List.map_cons, List.mem_cons, or_iff_right hx]
    · rcases List.mem_cons.mp hx with rfl | hx
      · exact ⟨hpos, Or.inl ⟨a, d, n, i, hk, hi, rfl, hsize⟩⟩
      · exact hs.blocks.liveBlocks x hx
    · exact List.nodup_cons.mpr ⟨hfree, hs.blocks.nodup⟩

/-! ### New arenas of small blocks -/

/-- The blocks of an arena. -/
def blocksOf (a : ℕ) (d : DescId) (n : ℕ) : List ℕ := (List.range n).map (blockAt a d)

theorem mem_blocksOf {x : ℕ} : x ∈ blocksOf a d n ↔ ∃ i < n, x = blockAt a d i := by
  simp only [blocksOf, List.mem_map, List.mem_range, eq_comm]

theorem arenaToBlock_eq (ha : a ≠ 0) (h : s.arenas a = some arena) (hmagic : arena.magic = arenaMagic)
    (hi : i < (desc d).blocksPerArena) : arenaToBlock s a d i = some (blockAt a d i) := by
  simp [arenaToBlock, ha, h, hmagic, hi, assert_true]

/-- The loop that puts the blocks of a new arena on the free list. -/
theorem pushBlocks_spec (hholds : Holds lists s.elems Q) (ha : a ≠ 0) (h : s.arenas a = some arena)
    (hmagic : arena.magic = arenaMagic)
    (hcells : ∀ i < (desc d).blocksPerArena, (s.elems (blockAt a d i)).isSome)
    (hout : ∀ i < (desc d).blocksPerArena, InNoList lists Q (blockAt a d i))
    (hn : n ≤ (desc d).blocksPerArena) : ∃ m,
      (List.range n).foldlM (fun s i ↦ do
        let b ← arenaToBlock s a d i
        let m ← listPushBack s.elems (lists d) b
        return { s with elems := m }) s = some { s with elems := m } ∧
      Holds lists m (Function.update Q d (Q d ++ blocksOf a d n)) ∧
      ∀ x, (m x).isSome = (s.elems x).isSome := by
  induction n with
  | zero =>
    refine ⟨s.elems, rfl, ?_, fun _ ↦ rfl⟩
    rwa [blocksOf, List.range_zero, List.map_nil, List.append_nil, Function.update_eq_self]
  | succ n ih =>
    obtain ⟨m, hfold, hholds', hsame⟩ := ih (Nat.le_of_succ_le hn)
    have hlast : (m (blockAt a d n)).isSome := by
      rw [hsame]
      exact hcells n hn
    have hnew : InNoList lists (Function.update Q d (Q d ++ blocksOf a d n)) (blockAt a d n) := by
      intro e hmem
      refine hout n hn e ?_
      by_cases he : e = d
      · subst he
        rw [Function.update_self] at hmem
        simp only [nodes, List.mem_cons, List.mem_append, List.not_mem_nil, or_false] at hmem ⊢
        rcases hmem with hmem | (hmem | hmem) | hmem
        · exact Or.inl hmem
        · exact Or.inr (Or.inl hmem)
        · obtain ⟨j, hj, heq⟩ := mem_blocksOf.mp hmem
          exact absurd (blockAt_inj heq) (Nat.ne_of_gt hj)
        · exact Or.inr (Or.inr hmem)
      · rwa [Function.update_of_ne he] at hmem
    obtain ⟨m', hpush, hholds''⟩ := holds_pushBack (i := d) hholds' hlast hnew
    refine ⟨m', ?_, ?_, fun x ↦ (listPushBack_allocated hpush x).trans (hsame x)⟩
    · rw [List.range_succ, List.foldlM_append, hfold]
      simp only [Option.bind_eq_bind, Option.bind_some, List.foldlM_cons, List.foldlM_nil,
        arenaToBlock_eq (s := { s with elems := m }) ha h hmagic hn, hpush, Option.pure_def]
    · rwa [Function.update_self, Function.update_idem, List.append_assoc,
        show blocksOf a d n ++ [blockAt a d n] = blocksOf a d (n + 1) by
          rw [blocksOf, blocksOf, List.range_succ, List.map_append, List.map_singleton]] at hholds''

/-- A fresh page becomes an arena with all its blocks on the free list. -/
theorem newArena_spec (hs : Consistent lists s live Q) (d : DescId)
    (hfresh : FreshPages s.elems a 1) : ∃ s', newArena lists s d a = some s' ∧
      Consistent lists s' live
        (Function.update Q d (Q d ++ blocksOf a d (desc d).blocksPerArena)) ∧
      s'.kinds = Function.update s.kinds a (some (some d, 1)) ∧ s'.bytes = s.bytes ∧
      s'.returned = s.returned := by
  let new : Arena := ⟨arenaMagic, some d, (desc d).blocksPerArena⟩
  let s₁ : State := { getPages s a 1 with arenas := s.arenas.put a new }
  have hself : s₁.arenas a = some new := Store.put_self ..
  have hin : ∀ i < (desc d).blocksPerArena, InRange a (PGSIZE * 1) (blockAt a d i) := fun i hi ↦ by
    rw [Nat.mul_one]
    exact blockAt_inRange hi (blockAt_self a d i)
  have hholds := hs.holds_getPages hfresh
  obtain ⟨m, hfold, hholds', hcells⟩ := pushBlocks_spec (s := s₁) (d := d) hholds hfresh.2.1 hself rfl
    (fun i hi ↦ getPages_isSome (hin i hi)) (fun i hi e hmem ↦ not_inRange_of_fresh hfresh
      ((hs.holds.ring e).allocated hmem) (hin i hi)) (Nat.le_refl _)
  have hkinds : State.kinds { s₁ with elems := m } =
      Function.update s.kinds a (some new.kind) := kinds_add rfl
  rw [show new.kind = (some d, 1) from rfl] at hkinds
  have hlayout₁ : Layout lists (getPages s a 1).elems
      (Function.update s.kinds a (some (some d, 1))) :=
    hs.layout.add hfresh (fun _ _ ↦ rfl) nofun hs.headers (fun x hx ↦ getPages_isSome hx)
      fun x hx ↦ getPages_same hx
  have hlayout := hlayout₁.congr hcells
  have hmem : ∀ x, x ∈ Q d ++ blocksOf a d (desc d).blocksPerArena ↔
      x ∈ Q d ∨ ∃ i < (desc d).blocksPerArena, x = blockAt a d i := fun x ↦ by
    rw [List.mem_append, mem_blocksOf]
  have hnone := hs.layout.fresh hfresh Nat.zero_lt_one
  refine ⟨{ s₁ with elems := m }, hfold, ⟨hholds', ?_, ?_, ?_, ?_⟩, hkinds, rfl, rfl⟩
  · rwa [hkinds]
  · rw [hkinds]
    exact hs.blocks.addSmall hs.layout hfresh hlayout hmem
  · intro a' arena' h'
    rw [show State.arenas { s₁ with elems := m } = s.arenas.put a new from rfl, Store.put_apply] at h'
    split_ifs at h' with haa
    · exact Option.some.inj h' ▸ rfl
    · exact hs.magic a' arena' h'
  · intro a' arena' d' h' hd'
    rw [show State.arenas { s₁ with elems := m } = s.arenas.put a new from rfl, Store.put_apply] at h'
    split_ifs at h' with haa
    · obtain rfl := Option.some.inj h'
      obtain rfl : d = d' := Option.some.inj hd'
      have hall : ∀ i < (desc d).blocksPerArena, blockAt a' d i ∈ Function.update Q d
          (Q d ++ blocksOf a d (desc d).blocksPerArena) d := fun i hi ↦ by
        rw [Function.update_self, haa]
        exact (hmem _).mpr (Or.inr ⟨i, hi, rfl⟩)
      rw [freeCount, Finset.filter_true_of_mem fun i hi ↦ hall i (Finset.mem_range.mp hi),
        Finset.card_range]
    · rw [hs.count a' arena' d' h' hd']
      refine (freeCount_congr fun i hi ↦ ?_).symm
      by_cases hdd : d' = d
      · subst hdd
        rw [Function.update_self, hmem, or_iff_left]
        rintro ⟨j, hj, heq⟩
        have hk' : Function.update s.kinds a (some (some d', 1)) a' = some (some d', 1) := by
          rw [Function.update_of_ne haa]
          exact kinds_small h' hd'
        exact haa (hlayout.blockAt_unique hk' (Function.update_self ..) hi hj heq).1
      · rw [Function.update_of_ne hdd]

/-! ### `malloc` -/

/-- The computation of the number of pages of a big block does not wrap. -/
def NoWrap (size : ℕ) : Prop := size + arenaSize + PGSIZE - 1 < sizeMod

instance (size : ℕ) : Decidable (NoWrap size) := by
  unfold NoWrap
  infer_instance

/-- Then the pages hold the block and the header. -/
theorem bigPages_spec (hsize : NoWrap size) : 0 < bigPages size ∧
    size + arenaSize ≤ PGSIZE * bigPages size ∧ PGSIZE * bigPages size < sizeMod := by
  rw [NoWrap] at hsize
  rw [bigPages, Nat.mod_eq_of_lt hsize]
  simp only [arenaSize, PGSIZE] at hsize ⊢
  omega

theorem Used.mono {kinds' : Kinds} {live' : List Block} (h : Used kinds live)
    (hkinds : ∀ a d n, kinds' a = some (some d, n) → kinds a = some (some d, n))
    (hlive : live.map Block.addr ⊆ live'.map Block.addr) : Used kinds' live' := by
  intro a d n hk
  obtain ⟨i, hi, hmem⟩ := h a d n (hkinds a d n hk)
  exact ⟨i, hi, hlive hmem⟩

/-- The allocator between calls. -/
structure Sane (lists : DescId → KList) (s : State) (live : List Block) (Q : DescId → List ℕ) :
    Prop where
  consistent : Consistent lists s live Q
  used : Used s.kinds live

/-- A new block, with nothing else changed. -/
structure Grows (lists : DescId → KList) (s : State) (live : List Block) (b size : ℕ) (s' : State) :
    Prop where
  sane : ∃ Q, Sane lists s' (⟨b, size⟩ :: live) Q
  kinds : ∀ a k, s.kinds a = some k → s'.kinds a = some k
  bytes : s'.bytes = s.bytes
  returned : s'.returned = s.returned

theorem subset_addr (b size : ℕ) (live : List Block) :
    live.map Block.addr ⊆ ((⟨b, size⟩ : Block) :: live).map Block.addr := by
  rw [List.map_cons]
  exact List.subset_cons_self ..

/-- Fresh pages for one block. -/
theorem mallocBig_spec (hs : Sane lists s live Q) (hpos : 0 < size) (hsize : NoWrap size)
    (hfresh : FreshPages s.elems a (bigPages size)) :
    Grows lists s live (a + arenaSize) size { getPages s a (bigPages size) with
      arenas := s.arenas.put a ⟨arenaMagic, none, bigPages size⟩ } := by
  obtain ⟨hn, hfits, hlt⟩ := bigPages_spec hsize
  set n := bigPages size
  let new : Arena := ⟨arenaMagic, none, n⟩
  let s' : State := { getPages s a n with arenas := s.arenas.put a new }
  have hkinds : s'.kinds = Function.update s.kinds a (some new.kind) := kinds_add rfl
  rw [show new.kind = (none, n) from rfl] at hkinds
  have hcons := hs.consistent
  have hnone := hcons.layout.fresh hfresh hn
  have hlayout : Layout lists s'.elems (Function.update s.kinds a (some (none, n))) :=
    hcons.layout.add hfresh nofun (fun _ ↦ ⟨hn, hlt⟩) hcons.headers
      (fun x hx ↦ getPages_isSome hx) fun x hx ↦ getPages_same hx
  have hold : ∀ a' arena', s'.arenas a' = some arena' → a' ≠ a → s.arenas a' = some arena' := by
    intro a' arena' h' hne
    exact (Store.put_of_ne s.arenas hne new).symm.trans h'
  refine ⟨⟨Q, ⟨hcons.holds_getPages hfresh, ?_, ?_, fun a' arena' h' ↦ ?_,
    fun a' arena' d' h' hd' ↦ ?_⟩, ?_⟩, fun a' k hk ↦ ?_, rfl, rfl⟩
  · rwa [hkinds]
  · rw [hkinds]
    exact hcons.blocks.addBig hcons.layout hfresh hn hlayout hpos hfits
  · by_cases haa : a' = a
    · subst haa
      obtain rfl := Option.some.inj ((Store.put_self ..).symm.trans h')
      rfl
    · exact hcons.magic a' arena' (hold a' arena' h' haa)
  · by_cases haa : a' = a
    · subst haa
      obtain rfl := Option.some.inj ((Store.put_self ..).symm.trans h')
      exact absurd hd' (Option.some_ne_none d').symm
    · exact hcons.count a' arena' d' (hold a' arena' h' haa) hd'
  · rw [hkinds]
    refine hs.used.mono (fun a' d' n' hk ↦ ?_) (subset_addr ..)
    have hne : a' ≠ a := by
      rintro rfl
      rw [Function.update_self] at hk
      exact absurd (congrArg Prod.fst (Option.some.inj hk)).symm (Option.some_ne_none d')
    rwa [Function.update_of_ne hne] at hk
  · have hne : a' ≠ a := by
      rintro rfl
      exact absurd (hnone.symm.trans hk).symm (Option.some_ne_none k)
    rw [hkinds, Function.update_of_ne hne, hk]

/-- A block of the free list of a descriptor. -/
theorem mallocSmall_spec (hs : Sane lists s live Q) (hQ : Q d = b :: B) (hpos : 0 < size)
    (hsize : size ≤ (desc d).blockSize) : ∃ s', takeBlock lists s d = some (b, s') ∧
      Grows lists s live b size s' := by
  obtain ⟨s', hcall, hcons, hkinds, hbytes, hreturned⟩ := takeBlock_spec hs.consistent hQ hpos hsize
  refine ⟨s', hcall, ⟨_, hcons, ?_⟩, fun a k hk ↦ ?_, hbytes, hreturned⟩
  · rw [hkinds]
    exact hs.used.mono (fun _ _ _ hk ↦ hk) (subset_addr ..)
  · rwa [hkinds]

/-- A block of a fresh arena. -/
theorem mallocNew_spec (hs : Sane lists s live Q) (hQ : Q d = []) (hpos : 0 < size)
    (hsize : size ≤ (desc d).blockSize) (hfresh : FreshPages s.elems a 1) : ∃ s₁ b s',
      newArena lists s d a = some s₁ ∧ takeBlock lists s₁ d = some (b, s') ∧
        Grows lists s live b size s' := by
  obtain ⟨s₁, hnew, hcons, hkinds, hbytes, hreturned⟩ := newArena_spec hs.consistent d hfresh
  rw [hQ, List.nil_append] at hcons
  obtain ⟨k, hk⟩ := Nat.exists_eq_succ_of_ne_zero (Nat.ne_of_gt (desc_spec d).2.2.1)
  have hfirst : Function.update Q d (blocksOf a d (desc d).blocksPerArena) d =
      blockAt a d 0 :: (List.range k).map fun i ↦ blockAt a d (i + 1) := by
    rw [Function.update_self, hk, blocksOf, List.range_succ_eq_map, List.map_cons, List.map_map]
    rfl
  obtain ⟨s', hcall, hcons', hkinds', hbytes', hreturned'⟩ :=
    takeBlock_spec hcons hfirst hpos hsize
  have hnone := hs.consistent.layout.fresh hfresh Nat.zero_lt_one
  refine ⟨s₁, _, s', hnew, hcall, ⟨_, hcons', fun a' d' n' hk' ↦ ?_⟩, fun a' k' hk' ↦ ?_,
    hbytes'.trans hbytes, hreturned'.trans hreturned⟩
  · rw [hkinds', hkinds] at hk'
    by_cases haa : a' = a
    · subst haa
      rw [Function.update_self] at hk'
      obtain rfl : d = d' := Option.some.inj (congrArg Prod.fst (Option.some.inj hk'))
      exact ⟨0, (desc_spec d).2.2.1, List.mem_cons_self⟩
    · rw [Function.update_of_ne haa] at hk'
      obtain ⟨i, hi, hmem⟩ := hs.used a' d' n' hk'
      exact ⟨i, hi, subset_addr _ _ _ hmem⟩
  · have hne : a' ≠ a := by
      rintro rfl
      exact absurd (hnone.symm.trans hk').symm (Option.some_ne_none k')
    rw [hkinds', hkinds, Function.update_of_ne hne, hk']

/-- `malloc` returns a block or, with nothing changed, `NULL`. -/
theorem malloc_spec (hs : Sane lists s live Q) {palloc : ℕ → Option ℕ} (hsize : NoWrap size)
    (hfresh : ∀ n a, palloc n = some a → FreshPages s.elems a n) :
    malloc lists palloc s size = some (none, s) ∨
      ∃ b s', malloc lists palloc s size = some (some b, s') ∧ Grows lists s live b size s' := by
  by_cases hzero : size = 0
  · exact Or.inl (if_pos hzero)
  have hpos := Nat.pos_of_ne_zero hzero
  rw [malloc, if_neg hzero]
  split
  · split
    · exact Or.inl rfl
    · exact Or.inr ⟨_, _, rfl, mallocBig_spec hs hpos hsize (hfresh _ _ ‹_›)⟩
  · rename_i d hfind
    have hfits : size ≤ (desc d).blockSize :=
      of_decide_eq_true (List.findFinIdx?_eq_some_iff.mp hfind).1
    rw [hs.consistent.holds.listEmpty_eq, Option.bind_eq_bind, Option.bind_some]
    cases hQ : Q d with
    | nil =>
      rw [decide_eq_true rfl, if_pos rfl]
      split
      · exact Or.inl rfl
      · obtain ⟨s₁, b, s', hnew, hcall, hgrows⟩ :=
          mallocNew_spec hs hQ hpos hfits (hfresh 1 _ ‹_›)
        refine Or.inr ⟨b, s', ?_, hgrows⟩
        simp only [hnew, hcall, Option.bind_eq_bind, Option.bind_some, Option.pure_def]
    | cons b B =>
      rw [decide_eq_false (List.cons_ne_nil b B), if_neg Bool.false_ne_true]
      obtain ⟨s', hcall, hgrows⟩ := mallocSmall_spec hs hQ hpos hfits
      refine Or.inr ⟨b, s', ?_, hgrows⟩
      simp only [hcall, Option.bind_eq_bind, Option.bind_some, Option.pure_def]

end Jungle.Arenas
