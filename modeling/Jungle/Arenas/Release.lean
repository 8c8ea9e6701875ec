import Jungle.Arenas.Calls

/-!
# Taking blocks back

What `free` does to a consistent allocator: the block goes onto its free list, and when it was the last
live one of its arena, all blocks of the arena leave the list and the pages are given back. The bytes of
other live blocks stay.
-/

set_option autoImplicit false
set_option relaxedAutoImplicit false

namespace Jungle.Arenas

open Jungle.Lib Jungle.KernelList Jungle.Pages

variable {lists : DescId → KList} {s s' : State} {live live' : List Block} {Q Q' : DescId → List ℕ}
  {kinds : Kinds} {elems : Elems} {a b n k i y : ℕ} {d : DescId} {B L : List ℕ} {arena : Arena}
  {x z : Block}

/-! ### Where a live block is -/

/-- A live block in an arena of small blocks. -/
structure SmallAt (s : State) (x : Block) (a : ℕ) (arena : Arena) (d : DescId) (i : ℕ) : Prop where
  found : s.arenas a = some arena
  kind : arena.desc = some d
  index : i < (desc d).blocksPerArena
  addr : x.addr = blockAt a d i
  size : x.size ≤ (desc d).blockSize

/-- A live block with an arena of its own. -/
structure BigAt (s : State) (x : Block) (a : ℕ) (arena : Arena) : Prop where
  found : s.arenas a = some arena
  kind : arena.desc = none
  addr : x.addr = a + arenaSize
  size : x.size + arenaSize ≤ PGSIZE * arena.freeCnt

theorem Consistent.liveAt (hs : Consistent lists s live Q) (hx : x ∈ live) :
    (∃ a arena d i, SmallAt s x a arena d i) ∨ ∃ a arena, BigAt s x a arena := by
  rcases (hs.blocks.liveBlocks x hx).2 with ⟨a, d, n, i, hk, hi, haddr, hsize⟩ | ⟨a, n, hk, haddr, hsize⟩
  · obtain ⟨arena, harena, hkind⟩ := exists_arena hk
    exact Or.inl ⟨a, arena, d, i, harena, congrArg Prod.fst hkind, hi, haddr, hsize⟩
  · obtain ⟨arena, harena, hkind⟩ := exists_arena hk
    have hd : arena.desc = none := congrArg Prod.fst hkind
    have hk' := (kinds_big harena hd).symm.trans hk
    have hn : arena.freeCnt = n := congrArg Prod.snd (Option.some.inj hk')
    exact Or.inr ⟨a, arena, harena, hd, haddr, hn ▸ hsize⟩

/-- `block_size` of a small block -/
theorem SmallAt.blockSize_eq (h : SmallAt s x a arena d i) (hs : Consistent lists s live Q) :
    blockSize s x.addr = some (desc d).blockSize := by
  simp [blockSize, h.addr, blockToArena_small hs h.found h.kind h.index, h.kind]

/-- `block_size` of a big block -/
theorem BigAt.blockSize_eq (h : BigAt s x a arena) (hs : Consistent lists s live Q) :
    blockSize s x.addr = some (PGSIZE * arena.freeCnt - arenaSize) := by
  have hk := kinds_big h.found h.kind
  obtain ⟨hpos, hlt⟩ := hs.layout.big a _ hk
  have hle : arenaSize ≤ PGSIZE * arena.freeCnt := by
    simp only [arenaSize, PGSIZE]
    omega
  have hmod : (PGSIZE * arena.freeCnt + sizeMod - arenaSize) % sizeMod =
      PGSIZE * arena.freeCnt - arenaSize := by
    rw [Nat.sub_add_comm hle, Nat.add_mod_right, Nat.mod_eq_of_lt (by omega)]
  simp [blockSize, h.addr, blockToArena_big hs h.found h.kind, h.kind,
    pgOfs_big (hs.layout.page a _ _ hk).1, hmod]

theorem SmallAt.page (h : SmallAt s x a arena d i) (hs : Consistent lists s live Q) :
    pgRoundDown x.addr = a := by
  rw [h.addr]
  exact pgRoundDown_blockAt (hs.layout.page a _ _ (kinds_small h.found h.kind)).1 h.index

theorem BigAt.page (h : BigAt s x a arena) (hs : Consistent lists s live Q) :
    pgRoundDown x.addr = a := by
  rw [h.addr]
  exact pgRoundDown_big (hs.layout.page a _ _ (kinds_big h.found h.kind)).1

/-- A live block lies in the pages of its arena. -/
theorem Consistent.live_pages (hs : Consistent lists s live Q) (hx : x ∈ live) : ∃ arena k,
    s.arenas (pgRoundDown x.addr) = some arena ∧ blockSize s x.addr = some k ∧ x.size ≤ k ∧
      ∀ y, InRange x.addr k y → InRange (pgRoundDown x.addr) (PGSIZE * arena.pages) y ∧
        ¬InRange (pgRoundDown x.addr) arenaSize y := by
  rcases hs.liveAt hx with ⟨a, arena, d, i, h⟩ | ⟨a, arena, h⟩
  · rw [h.page hs, h.blockSize_eq hs, h.addr]
    refine ⟨arena, _, h.found, rfl, h.size, fun y hy ↦ ⟨?_, ?_⟩⟩
    · rw [Arena.pages, h.kind, Option.isSome_some, if_pos rfl, Nat.mul_one]
      exact blockAt_inRange h.index hy
    · simp only [InRange, blockAt] at hy ⊢
      omega
  · rw [h.page hs, h.blockSize_eq hs, h.addr]
    refine ⟨arena, _, h.found, rfl, ?_, fun y hy ↦ ⟨?_, ?_⟩⟩
    · have hsize := h.size
      omega
    · rw [Arena.pages, h.kind, Option.isSome_none, if_neg Bool.false_ne_true]
      simp only [InRange] at hy ⊢
      omega
    · simp only [InRange] at hy ⊢
      omega

/-- Two live blocks do not overlap. -/
theorem Consistent.live_apart (hs : Consistent lists s live Q) (hx : x ∈ live) (hz : z ∈ live)
    (hne : x.addr ≠ z.addr) {m : ℕ} (hk : blockSize s x.addr = some k)
    (hm : blockSize s z.addr = some m) (hy : InRange x.addr k y) : ¬InRange z.addr m y := by
  intro hy'
  obtain ⟨arena, k', harena, hk', -, hrange⟩ := hs.live_pages hx
  obtain ⟨arena', m', harena', hm', -, hrange'⟩ := hs.live_pages hz
  obtain rfl := Option.some.inj (hk.symm.trans hk')
  obtain rfl := Option.some.inj (hm.symm.trans hm')
  have hsame : pgRoundDown x.addr = pgRoundDown z.addr := by
    have hkx : s.kinds (pgRoundDown x.addr) = some arena.kind := by
      rw [State.kinds, harena, Option.map_some]
    have hkz : s.kinds (pgRoundDown z.addr) = some arena'.kind := by
      rw [State.kinds, harena', Option.map_some]
    exact hs.layout.unique hkx hkz (hrange y hy).1 (hrange' y hy').1
  rcases hs.liveAt hx with ⟨a, _, d, i, h⟩ | ⟨a, _, h⟩ <;>
    rcases hs.liveAt hz with ⟨a', _, d', j, h'⟩ | ⟨a', _, h'⟩ <;>
    rw [h.page hs, h'.page hs] at hsame <;> subst hsame
  · have harena := Option.some.inj (h.found.symm.trans h'.found)
    obtain rfl : d = d' := Option.some.inj (h.kind.symm.trans (harena ▸ h'.kind))
    rw [h.blockSize_eq hs] at hk
    rw [h'.blockSize_eq hs] at hm
    obtain rfl := Option.some.inj hk
    obtain rfl := Option.some.inj hm
    rw [h.addr] at hy hne
    rw [h'.addr] at hy' hne
    exact blockAt_apart (fun heq ↦ hne (congrArg (blockAt a d) heq)) hy hy'
  · have harena := Option.some.inj (h.found.symm.trans h'.found)
    exact Option.some_ne_none d (h.kind.symm.trans (harena ▸ h'.kind))
  · have harena := Option.some.inj (h.found.symm.trans h'.found)
    exact Option.some_ne_none d' (h'.kind.symm.trans (harena ▸ h.kind))
  · exact hne (h.addr.trans h'.addr.symm)

/-! ### Giving pages back -/

/-- A block is the only live one in its pages. -/
def Last (live : List Block) (b : ℕ) : Prop :=
  ∀ x ∈ live, pgRoundDown x.addr = pgRoundDown b → x.addr = b

instance (live : List Block) (b : ℕ) : Decidable (Last live b) := by
  unfold Last
  infer_instance

/-- The bytes of blocks stay. -/
def SameBytes (s s' : State) (live : List Block) : Prop :=
  ∀ x ∈ live, ∀ k, blockSize s x.addr = some k → ∀ y, InRange x.addr k y → s'.bytes y = s.bytes y

/-- The pages of a block are given back if and only if it was the last one, and then no free block is
in them. -/
def Released (s : State) (live : List Block) (b : ℕ) (s' : State) (Q : DescId → List ℕ) : Prop :=
  ∃ arena, s.arenas (pgRoundDown b) = some arena ∧
    if Last live b then
      s'.returned = s.returned ++ [(pgRoundDown b, arena.pages)] ∧
        s'.arenas (pgRoundDown b) = none ∧
        ∀ d, ∀ x ∈ Q d, ¬InRange (pgRoundDown b) (PGSIZE * arena.pages) x
    else s'.returned = s.returned

theorem fill_outside {bytes : ℕ → UInt8} {start size : ℕ} {value : UInt8} (h : ¬InRange start size y) :
    fill bytes start size value y = bytes y :=
  if_neg h

/-- A live block of other pages. -/
theorem Consistent.live_outside (hs : Consistent lists s live Q) (hx : x ∈ live)
    (hk : blockSize s x.addr = some k) (ha : s.arenas a = some arena) (hne : pgRoundDown x.addr ≠ a)
    (hy : InRange x.addr k y) : ¬InRange a (PGSIZE * arena.pages) y := by
  obtain ⟨arena', k', harena', hk', -, hrange⟩ := hs.live_pages hx
  obtain rfl := Option.some.inj (hk.symm.trans hk')
  have hkx : s.kinds (pgRoundDown x.addr) = some arena'.kind := by
    rw [State.kinds, harena', Option.map_some]
  have hka : s.kinds a = some arena.kind := by
    rw [State.kinds, ha, Option.map_some]
  exact fun hin ↦ hne (hs.layout.unique hkx hka (hrange y hy).1 hin)

/-- Pages without free blocks are given back. -/
theorem Consistent.release (hlayout : Layout lists s.elems s.kinds) {e : Option DescId}
    (ha : s.kinds a = some (e, n)) (hholds : Holds lists s.elems Q)
    (hclear : ∀ d, ∀ x ∈ Q d, ¬InRange a (PGSIZE * n) x)
    (hblocks : Blocks (Function.update s.kinds a none) live Q)
    (hmagic : ∀ a arena, s.arenas a = some arena → arena.magic = arenaMagic)
    (hcount : ∀ a' arena d, a' ≠ a → s.arenas a' = some arena → arena.desc = some d →
      arena.freeCnt = freeCount Q a' d) : Consistent lists (freePages s a n) live Q := by
  have hkinds : (freePages s a n).kinds = Function.update s.kinds a none := kinds_free rfl
  have hold : ∀ a' arena, (freePages s a n).arenas a' = some arena →
      a' ≠ a ∧ s.arenas a' = some arena := by
    intro a' arena h'
    have hfree : (freePages s a n).arenas = s.arenas.free a := rfl
    rw [hfree, Store.free_apply] at h'
    split_ifs at h' with haa
    exact ⟨haa, h'⟩
  refine ⟨hholds.frame fun e' x hx ↦ if_neg fun hin ↦ ?_, ?_, ?_,
    fun a' arena h' ↦ hmagic a' arena (hold a' arena h').2,
    fun a' arena d h' ↦ hcount a' arena d (hold a' arena h').1 (hold a' arena h').2⟩
  · simp only [nodes, List.mem_cons, List.mem_append, List.not_mem_nil, or_false] at hx
    rcases hx with rfl | hx | rfl
    · exact (hlayout.headers a e n ha _ hin e').1 rfl
    · exact hclear e' x hx hin
    · exact (hlayout.headers a e n ha _ hin e').2 rfl
  · rw [hkinds]
    exact hlayout.remove ha fun x hx ↦ if_neg hx
  · rwa [hkinds]

/-! ### The blocks of an arena leave the free list -/

/-- The loop that removes the blocks of an arena from the free list. -/
theorem removeBlocks_spec (hholds : Holds lists s.elems Q) (ha : a ≠ 0)
    (h : s.arenas a = some arena) (hmagic : arena.magic = arenaMagic)
    (hall : ∀ i < (desc d).blocksPerArena, blockAt a d i ∈ Q d)
    (hn : n ≤ (desc d).blocksPerArena) : ∃ m L,
      (List.range n).foldlM (fun s i ↦ do
        let b ← arenaToBlock s a d i
        let (_, m) ← listRemove s.elems b
        return { s with elems := m }) s = some { s with elems := m } ∧
      Holds lists m (Function.update Q d L) ∧
      (∀ x, x ∈ L ↔ x ∈ Q d ∧ ∀ i < n, x ≠ blockAt a d i) ∧
      ∀ x, (m x).isSome = (s.elems x).isSome := by
  induction n with
  | zero =>
    refine ⟨s.elems, Q d, rfl, ?_, fun x ↦ (and_iff_left nofun).symm, fun _ ↦ rfl⟩
    rwa [Function.update_eq_self]
  | succ n ih =>
    obtain ⟨m, L, hfold, hholds', hmem, hsame⟩ := ih (Nat.le_of_succ_le hn)
    have hin : blockAt a d n ∈ L := (hmem _).mpr
      ⟨hall n hn, fun i hi heq ↦ Nat.ne_of_gt hi (blockAt_inj heq)⟩
    obtain ⟨F, B, hsplit, -⟩ := List.eq_append_cons_of_mem hin
    have hL : Function.update Q d L d = F ++ blockAt a d n :: B := by
      rw [Function.update_self, hsplit]
    have hnodup : (F ++ blockAt a d n :: B).Nodup := by
      have hnodup := hholds'.wellFormed.nodup d
      rwa [hL] at hnodup
    have hout : blockAt a d n ∉ F ++ B :=
      (List.nodup_cons.mp (List.nodup_middle.mp hnodup)).1
    obtain ⟨m', y, hremove, -, hholds''⟩ := holds_remove hholds' hL
    refine ⟨m', F ++ B, ?_, ?_, fun x ↦ ?_, fun x ↦ (listRemove_allocated hremove x).trans (hsame x)⟩
    · rw [List.range_succ, List.foldlM_append, hfold]
      simp only [Option.bind_eq_bind, Option.bind_some, List.foldlM_cons, List.foldlM_nil,
        arenaToBlock_eq (s := { s with elems := m }) ha h hmagic hn, hremove, Option.pure_def]
    · rwa [Function.update_idem] at hholds''
    · have hiff : x ∈ F ++ B ↔ x ∈ L ∧ x ≠ blockAt a d n := by
        rw [hsplit]
        constructor
        · intro hx
          refine ⟨?_, fun heq ↦ hout (heq ▸ hx)⟩
          exact (List.append_sublist_append_left F |>.mpr (List.sublist_cons_self _ B)).subset hx
        · rintro ⟨hx, hne⟩
          rcases List.mem_append.mp hx with hx | hx
          · exact List.mem_append_left B hx
          · exact List.mem_append_right F ((List.mem_cons.mp hx).resolve_left hne)
      rw [hiff, hmem, and_assoc]
      refine and_congr_right fun _ ↦ ⟨fun ⟨hlt, hne⟩ i hi ↦ ?_, fun h ↦
        ⟨fun i hi ↦ h i (Nat.lt_succ_of_lt hi), h n (Nat.lt_succ_self n)⟩⟩
      rcases Nat.lt_succ_iff_lt_or_eq.mp hi with hi | rfl
      · exact hlt i hi
      · exact hne

/-! ### `free` -/

/-- A block is taken back, and the bytes of the others stay. -/
structure Shrinks (lists : DescId → KList) (s : State) (live : List Block) (b : ℕ) (s' : State) :
    Prop where
  sane : ∃ Q, Sane lists s' (without live b) Q ∧ Released s live b s' Q
  bytes : SameBytes s s' (without live b)

/-- A block was the last one when all blocks of its arena are free after it. -/
theorem last_iff (hs : Consistent lists s (without live b) Q) (ha : s.arenas a = some arena)
    (hd : arena.desc = some d) (hb : pgRoundDown b = a) :
    Last live b ↔ freeCount Q a d = (desc d).blocksPerArena := by
  have hk := kinds_small ha hd
  have hpage := (hs.layout.page a _ _ hk).1
  constructor
  · intro hlast
    by_contra hne
    obtain ⟨i, hi, hout⟩ :=
      exists_of_freeCount_lt (Nat.lt_of_le_of_ne (freeCount_le Q a d) hne)
    have hlive := not_not.mp fun hnot ↦ hout ((hs.blocks.free a d 1 hk i hi).mpr hnot)
    obtain ⟨x, hx, haddr⟩ := List.mem_map.mp hlive
    obtain ⟨hx, hxb⟩ := mem_without.mp hx
    refine hxb (hlast x hx ?_)
    rw [haddr, pgRoundDown_blockAt hpage hi, hb]
  · intro hall x hx hround
    by_contra hxb
    have hx' := mem_without.mpr ⟨hx, hxb⟩
    rcases hs.liveAt hx' with ⟨a', arena', d', i, h⟩ | ⟨a', arena', h⟩
    · obtain rfl : a' = a := (h.page hs).symm.trans (hround.trans hb)
      have harena := Option.some.inj (ha.symm.trans h.found)
      obtain rfl : d = d' := Option.some.inj (hd.symm.trans (harena ▸ h.kind))
      refine (hs.blocks.free a' d 1 hk i h.index).mp (mem_of_freeCount hall h.index) ?_
      exact h.addr ▸ List.mem_map_of_mem hx'
    · obtain rfl : a' = a := (h.page hs).symm.trans (hround.trans hb)
      have harena := Option.some.inj (ha.symm.trans h.found)
      exact Option.some_ne_none d (hd.symm.trans (harena ▸ h.kind))

/-- A block goes onto its free list. -/
theorem pushFree_spec (hs : Consistent lists s live Q) (hx : x ∈ live)
    (h : SmallAt s x a arena d i) (bytes : ℕ → UInt8) : ∃ m,
      listPushFront s.elems (lists d) x.addr = some m ∧
      (arena.freeCnt + 1) % sizeMod = freeCount (Function.update Q d (x.addr :: Q d)) a d ∧
      Consistent lists { s with
        elems := m
        bytes := bytes
        arenas := s.arenas.put a { arena with freeCnt := (arena.freeCnt + 1) % sizeMod } }
        (without live x.addr) (Function.update Q d (x.addr :: Q d)) := by
  have hk := kinds_small h.found h.kind
  have hlive : x.addr ∈ live.map Block.addr := List.mem_map_of_mem hx
  have hcell : (s.elems x.addr).isSome := hs.blocks.live_isSome hs.layout hlive
  have hout : x.addr ∉ Q d := fun hmem ↦ by
    rw [h.addr] at hmem hlive
    exact (hs.blocks.free a d 1 hk i h.index).mp hmem hlive
  have hnew : InNoList lists Q x.addr := by
    intro e hmem
    have hin : InRange a (PGSIZE * 1) x.addr := by
      rw [h.addr, Nat.mul_one]
      exact blockAt_inRange h.index (blockAt_self a d i)
    simp only [nodes, List.mem_cons, List.mem_append, List.not_mem_nil, or_false] at hmem
    rcases hmem with hmem | hmem | hmem
    · exact (hs.layout.headers a _ 1 hk _ hin e).1 hmem
    · obtain ⟨a', n, j, hk', hj, heq⟩ := hs.blocks.freeBlocks e _ hmem
      obtain ⟨-, hde, -⟩ := hs.layout.blockAt_unique hk hk' h.index hj (h.addr.symm.trans heq)
      exact hout (hde ▸ hmem)
    · exact (hs.layout.headers a _ 1 hk _ hin e).2 hmem
  obtain ⟨m, hpush, hholds⟩ := holds_pushFront (i := d) hs.holds hcell hnew
  have hmem : ∀ z, z ≠ blockAt a d i → (z ∈ x.addr :: Q d ↔ z ∈ Q d) := fun z hz ↦ by
    rw [List.mem_cons, h.addr, or_iff_right hz]
  have hcount : freeCount (Function.update Q d (x.addr :: Q d)) a d = freeCount Q a d + 1 := by
    refine freeCount_insert h.index ?_ (h.addr ▸ hout) fun z hz ↦ ?_
    · rw [Function.update_self, h.addr]
      exact List.mem_cons_self
    · rw [Function.update_self]
      exact hmem z hz
  have hcnt : (arena.freeCnt + 1) % sizeMod =
      freeCount (Function.update Q d (x.addr :: Q d)) a d := by
    rw [hs.count a arena d h.found h.kind, ← hcount]
    exact Nat.mod_eq_of_lt (Nat.lt_of_le_of_lt (freeCount_le _ a d) (desc_spec d).2.2.2.1)
  refine ⟨m, hpush, hcnt, hs.move h.found h.kind h.index hholds (listPushFront_allocated hpush)
    (by rw [← hcnt]) hmem (fun z hz ↦ ?_) ?_ (fun z hz ↦ hs.blocks.liveBlocks z (mem_without.mp hz).1)
    (nodup_without hs.blocks.nodup _)⟩
  · rw [mem_map_without, h.addr, and_iff_left hz]
  · rw [h.addr]
    exact iff_of_true List.mem_cons_self fun hin ↦ (mem_map_without.mp hin).2 rfl

/-- The bytes of the other blocks stay when a small block is cleared. -/
theorem sameBytes_fill (hs : Consistent lists s live Q) (hx : x ∈ live)
    (h : SmallAt s x a arena d i) {value : UInt8}
    (hbytes : s'.bytes = fill s.bytes x.addr (desc d).blockSize value) :
    SameBytes s s' (without live x.addr) := by
  intro z hz k hk y hy
  obtain ⟨hz, hne⟩ := mem_without.mp hz
  rw [hbytes]
  exact fill_outside (hs.live_apart hz hx hne hk (h.blockSize_eq hs) hy)

/-- The bytes of the blocks in other pages stay when pages are given back. -/
theorem sameBytes_freePages (hs : Consistent lists s live Q) (ha : s.arenas a = some arena)
    (hlast : ∀ x ∈ live', x ∈ live ∧ pgRoundDown x.addr ≠ a) (hbytes : SameBytes s s' live') :
    SameBytes s (freePages s' a arena.pages) live' := by
  intro z hz k hk y hy
  have hout := hs.live_outside (hlast z hz).1 hk ha (hlast z hz).2 hy
  exact (fill_outside hout).trans (hbytes z hz k hk y hy)

/-- The last block of an arena goes with the arena. -/
theorem releaseSmall_spec (hs : Consistent lists s live Q) (ha : s.arenas a = some arena)
    (hd : arena.desc = some d) (hall : freeCount Q a d = (desc d).blocksPerArena)
    (hused : ∀ a' e n, a' ≠ a → s.kinds a' = some (some e, n) →
      ∃ i < (desc e).blocksPerArena, blockAt a' e i ∈ live.map Block.addr) : ∃ s₁ Q',
      removeBlocks s a d = some s₁ ∧ s₁.bytes = s.bytes ∧ s₁.returned = s.returned ∧
      Sane lists (freePages s₁ a 1) live Q' ∧ ∀ e, ∀ x ∈ Q' e, ¬InRange a (PGSIZE * 1) x := by
  have hk := kinds_small ha hd
  have hfree : ∀ i < (desc d).blocksPerArena, blockAt a d i ∈ Q d := fun i hi ↦
    mem_of_freeCount hall hi
  obtain ⟨m, L, hfold, hholds, hmem, hcells⟩ := removeBlocks_spec hs.holds
    (hs.layout.page a _ _ hk).2 ha (hs.magic a arena ha) hfree (Nat.le_refl _)
  have hblocks := hs.blocks.removeSmall hs.layout hk hfree hmem
  have hclear : ∀ e, ∀ x ∈ Function.update Q d L e, ¬InRange a (PGSIZE * 1) x := by
    intro e x hx hin
    obtain ⟨a', n, i, hk', hi, rfl⟩ := hblocks.freeBlocks e x hx
    have hne : a' ≠ a := by
      rintro rfl
      rw [Function.update_self] at hk'
      exact absurd hk'.symm (Option.some_ne_none _)
    rw [Function.update_of_ne hne] at hk'
    exact hne (hs.layout.unique hk' hk (hs.layout.block_range hk' hi (blockAt_self a' e i)) hin)
  refine ⟨{ s with elems := m }, _, hfold, rfl, rfl, ⟨?_, fun a' e n hk' ↦ ?_⟩, hclear⟩
  · refine Consistent.release (hs.layout.congr hcells) hk hholds hclear hblocks hs.magic ?_
    intro a' arena' e hne ha' he
    refine (hs.count a' arena' e ha' he).trans (freeCount_congr fun i hi ↦ ?_).symm
    by_cases hde : e = d
    · subst hde
      rw [Function.update_self, hmem, and_iff_left]
      exact fun j hj heq ↦
        hne (hs.layout.blockAt_unique (kinds_small ha' he) hk hi hj heq).1
    · rw [Function.update_of_ne hde]
  · have hkinds : (freePages { s with elems := m } a 1).kinds =
        Function.update s.kinds a none := kinds_free rfl
    rw [hkinds] at hk'
    have hne : a' ≠ a := by
      rintro rfl
      rw [Function.update_self] at hk'
      exact absurd hk'.symm (Option.some_ne_none _)
    rw [Function.update_of_ne hne] at hk'
    exact hused a' e n hne hk'

/-- `free` of a small block -/
theorem freeSmall_spec (hs : Sane lists s live Q) (hx : x ∈ live) (h : SmallAt s x a arena d i) :
    ∃ s', free lists s (some x.addr) = some s' ∧ Shrinks lists s live x.addr s' := by
  have hcons := hs.consistent
  have hk := kinds_small h.found h.kind
  have hround := h.page hcons
  obtain ⟨m, hpush, hcnt, hcons₁⟩ :=
    pushFree_spec hcons hx h (fill s.bytes x.addr (desc d).blockSize 0xcc)
  set Q₁ := Function.update Q d (x.addr :: Q d)
  set s₁ : State := { s with
    elems := m
    bytes := fill s.bytes x.addr (desc d).blockSize 0xcc
    arenas := s.arenas.put a { arena with freeCnt := (arena.freeCnt + 1) % sizeMod } }
  have hself : s₁.arenas a = some { arena with freeCnt := (arena.freeCnt + 1) % sizeMod } :=
    Store.put_self ..
  have hkinds : s₁.kinds = s.kinds := kinds_put h.found (kind_small h.kind _) rfl
  have hlast : Last live x.addr ↔ freeCount Q₁ a d = (desc d).blocksPerArena :=
    last_iff hcons₁ hself h.kind hround
  have hblock : blockToArena s x.addr = some (a, arena) := by
    rw [h.addr]
    exact blockToArena_small hcons h.found h.kind h.index
  have hbytes : SameBytes s s₁ (without live x.addr) := sameBytes_fill hcons hx h rfl
  have hused : ∀ a' e n, a' ≠ a → s.kinds a' = some (some e, n) →
      ∃ j < (desc e).blocksPerArena, blockAt a' e j ∈ (without live x.addr).map Block.addr := by
    intro a' e n hne hk'
    obtain ⟨j, hj, hmem⟩ := hs.used a' e n hk'
    refine ⟨j, hj, mem_map_without.mpr ⟨hmem, fun heq ↦ hne ?_⟩⟩
    exact (hcons.layout.blockAt_unique hk' hk hj h.index (heq.trans h.addr)).1
  have hcall : free lists s (some x.addr) =
      if (desc d).blocksPerArena ≤ (arena.freeCnt + 1) % sizeMod then do
        assert ((arena.freeCnt + 1) % sizeMod = (desc d).blocksPerArena)
        let s ← removeBlocks s₁ a d
        return freePages s a 1
      else some s₁ := by
    simp only [free, hblock, Option.bind_eq_bind, Option.bind_some, h.kind, hpush, s₁]
    rfl
  by_cases hall : freeCount Q₁ a d = (desc d).blocksPerArena
  · obtain ⟨s₂, Q₂, hremove, hbytes₂, hreturned₂, hsane, hclear⟩ :=
      releaseSmall_spec hcons₁ hself h.kind hall (fun a' e n hne hk' ↦
        hused a' e n hne (hkinds ▸ hk'))
    refine ⟨freePages s₂ a 1, ?_, ⟨Q₂, hsane, arena, hround ▸ h.found, ?_⟩, ?_⟩
    · rw [hcall, hcnt, hall, if_pos (Nat.le_refl _), decide_eq_true rfl, assert_true, hremove]
      rfl
    · have hpages : arena.pages = 1 := by
        rw [Arena.pages, h.kind, Option.isSome_some, if_pos rfl]
      rw [if_pos (hlast.mpr hall), hround, hpages]
      refine ⟨?_, Store.free_self .., hclear⟩
      exact congrArg (fun r ↦ r ++ [(a, 1)]) hreturned₂
    · have hpages : arena.pages = 1 := by
        rw [Arena.pages, h.kind, Option.isSome_some, if_pos rfl]
      rw [← hpages]
      refine sameBytes_freePages hcons h.found (fun z hz ↦ ?_) fun z hz ↦ ?_
      · obtain ⟨hz, hne⟩ := mem_without.mp hz
        exact ⟨hz, fun heq ↦ hne (hlast.mpr hall z hz (heq.trans hround.symm))⟩
      · rw [hbytes₂]
        exact hbytes z hz
  · have hlt : freeCount Q₁ a d < (desc d).blocksPerArena :=
      Nat.lt_of_le_of_ne (freeCount_le Q₁ a d) hall
    refine ⟨s₁, ?_, ⟨Q₁, ⟨hcons₁, fun a' e n hk' ↦ ?_⟩, arena, hround ▸ h.found, ?_⟩, hbytes⟩
    · rw [hcall, hcnt, if_neg (Nat.not_le_of_lt hlt)]
    · by_cases hne : a' = a
      · subst hne
        rw [hkinds, hk] at hk'
        obtain rfl : d = e := Option.some.inj (congrArg Prod.fst (Option.some.inj hk'))
        obtain ⟨j, hj, hout⟩ := exists_of_freeCount_lt hlt
        have hk₁ : s₁.kinds a' = some (some d, 1) := hkinds ▸ hk
        exact ⟨j, hj, not_not.mp fun hnot ↦
          hout ((hcons₁.blocks.free a' d 1 hk₁ j hj).mpr hnot)⟩
      · exact hused a' e n hne (hkinds ▸ hk')
    · rw [if_neg fun hl ↦ hall (hlast.mp hl)]

/-- `free` of a big block -/
theorem freeBig_spec (hs : Sane lists s live Q) (h : BigAt s x a arena) :
    ∃ s', free lists s (some x.addr) = some s' ∧ Shrinks lists s live x.addr s' := by
  have hcons := hs.consistent
  have hk := kinds_big h.found h.kind
  have hround := h.page hcons
  have hblock : blockToArena s x.addr = some (a, arena) := by
    rw [h.addr]
    exact blockToArena_big hcons h.found h.kind
  have hpages : arena.pages = arena.freeCnt := by
    rw [Arena.pages, h.kind, Option.isSome_none, if_neg Bool.false_ne_true]
  have hlast : Last live x.addr := by
    intro z hz heq
    rcases hcons.liveAt hz with ⟨a', arena', d, i, h'⟩ | ⟨a', arena', h'⟩
    · obtain rfl : a' = a := (h'.page hcons).symm.trans (heq.trans hround)
      have harena := Option.some.inj (h.found.symm.trans h'.found)
      exact absurd (h'.kind.symm.trans (harena ▸ h.kind)) (Option.some_ne_none d)
    · obtain rfl : a' = a := (h'.page hcons).symm.trans (heq.trans hround)
      exact h'.addr.trans h.addr.symm
  have hclear : ∀ d, ∀ y ∈ Q d, ¬InRange a (PGSIZE * arena.freeCnt) y := by
    intro d y hy hin
    obtain ⟨a', n, i, hk', hi, rfl⟩ := hcons.blocks.freeBlocks d y hy
    obtain rfl := hcons.layout.unique hk' hk
      (hcons.layout.block_range hk' hi (blockAt_self a' d i)) hin
    exact absurd (congrArg Prod.fst (Option.some.inj (hk'.symm.trans hk))) (Option.some_ne_none d)
  have hblocks := hcons.blocks.removeBig hcons.layout hk
  rw [← h.addr] at hblocks
  have hkinds : (freePages s a arena.freeCnt).kinds = Function.update s.kinds a none :=
    kinds_free rfl
  refine ⟨freePages s a arena.freeCnt, ?_, ⟨Q, ⟨?_, fun a' e n hk' ↦ ?_⟩, arena, hround ▸ h.found,
    ?_⟩, ?_⟩
  · simp only [free, hblock, Option.bind_eq_bind, Option.bind_some, h.kind, Option.pure_def]
  · exact Consistent.release hcons.layout hk hcons.holds hclear hblocks hcons.magic
      fun a' arena' e _ ha' he ↦ hcons.count a' arena' e ha' he
  · rw [hkinds] at hk'
    have hne : a' ≠ a := by
      rintro rfl
      rw [Function.update_self] at hk'
      exact absurd hk'.symm (Option.some_ne_none _)
    rw [Function.update_of_ne hne] at hk'
    obtain ⟨j, hj, hmem⟩ := hs.used a' e n hk'
    refine ⟨j, hj, mem_map_without.mpr ⟨hmem, ?_⟩⟩
    rw [h.addr]
    exact hcons.layout.blockAt_ne_big hk' hk hj
  · rw [if_pos hlast, hround, hpages]
    exact ⟨rfl, Store.free_self .., hclear⟩
  · rw [← hpages]
    refine sameBytes_freePages hcons h.found (fun z hz ↦ ?_) fun _ _ _ _ _ _ ↦ rfl
    obtain ⟨hz, hne⟩ := mem_without.mp hz
    exact ⟨hz, fun heq ↦ hne (hlast z hz (heq.trans hround.symm))⟩

/-- `free` takes a live block back. -/
theorem free_spec (hs : Sane lists s live Q) (hx : x ∈ live) :
    ∃ s', free lists s (some x.addr) = some s' ∧ Shrinks lists s live x.addr s' := by
  rcases hs.consistent.liveAt hx with ⟨a, arena, d, i, h⟩ | ⟨a, arena, h⟩
  · exact freeSmall_spec hs hx h
  · exact freeBig_spec hs h

end Jungle.Arenas
