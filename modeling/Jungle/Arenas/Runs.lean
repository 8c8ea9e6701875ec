import Jungle.Arenas.Release
import Jungle.Lib.Run

/-!
# Runs of the block allocator

Any calls of `malloc`, `realloc` and `free`, with stores to live blocks between them. `palloc` may fail
at any call; the pages that it returns are no memory of the allocator. The live blocks are tracked with
the sizes that were asked for.
-/

set_option autoImplicit false
set_option relaxedAutoImplicit false

namespace Jungle.Arenas

open Jungle.Lib Jungle.KernelList Jungle.Pages

/-- The calls, and a store of a byte. -/
inductive Call
  | malloc (palloc : ℕ → Option ℕ) (size : ℕ)
  | realloc (palloc : ℕ → Option ℕ) (oldBlock : Option ℕ) (newSize : ℕ)
  | free (p : Option ℕ)
  | store (a : ℕ) (value : UInt8)

/-- The block that a call returns, if any, and the state after it. -/
def Call.exec (lists : DescId → KList) (s : State) : Call → Option (Option ℕ × State)
  | .malloc palloc size => Arenas.malloc lists palloc s size
  | .realloc palloc oldBlock newSize => Arenas.realloc lists palloc s oldBlock newSize
  | .free p => (Arenas.free lists s p).map (none, ·)
  | .store a value => some (none, { s with bytes := Function.update s.bytes a value })

/-- The live blocks without the one that a pointer points to. -/
def dropBlock (live : List Block) : Option ℕ → List Block
  | none => live
  | some b => without live b

/-- The live blocks after a call that has returned `result`. -/
def Call.after (live : List Block) (result : Option ℕ) : Call → List Block
  | .malloc _ size => (result.map fun b ↦ ⟨b, size⟩).toList ++ live
  | .realloc _ oldBlock newSize =>
    if newSize = 0 then dropBlock live oldBlock
    else
      match result with
      | none => live
      | some b => ⟨b, newSize⟩ :: dropBlock live oldBlock
  | .free p => dropBlock live p
  | .store _ _ => live

/-- The pages of `palloc` are fresh. -/
def PallocFresh (s : State) (palloc : ℕ → Option ℕ) : Prop :=
  ∀ n a, palloc n = some a → FreshPages s.elems a n

/-- A pointer is `NULL` or points to a live block. -/
def IsLive (live : List Block) (p : Option ℕ) : Prop := ∀ b ∈ p, b ∈ live.map Block.addr

/-- What callers may do: the sizes do not overflow `size + sizeof (struct arena)`, the blocks are live,
and bytes are stored in live blocks only. -/
def Call.Allowed (s : State) (live : List Block) : Call → Prop
  | .malloc palloc size => size + arenaSize < sizeMod ∧ PallocFresh s palloc
  | .realloc palloc oldBlock newSize =>
    newSize + arenaSize < sizeMod ∧ PallocFresh s palloc ∧ IsLive live oldBlock
  | .free p => IsLive live p
  | .store a _ => ∃ x ∈ live, InRange x.addr x.size a

/-- The computation of the number of pages does not wrap. -/
def Call.Guard : Call → Prop
  | .malloc _ size => NoWrap size
  | .realloc _ _ newSize => NoWrap newSize
  | _ => True

/-- The arenas are consistent, with the free lists holding `σ`. -/
structure Sound (lists : DescId → KList) (s : State) (live : List Block) (σ : DescId → List ℕ) :
    Prop where
  wellFormed : WellFormed lists s.elems σ
  free : ∀ d b, b ∈ σ d ↔ b ∉ live.map Block.addr ∧ ∃ a arena i, s.arenas a = some arena ∧
    arena.desc = some d ∧ i < (desc d).blocksPerArena ∧ b = blockAt a d i
  count : ∀ a arena d, s.arenas a = some arena → arena.desc = some d →
    arena.freeCnt = freeCount σ a d ∧ arena.freeCnt < (desc d).blocksPerArena
  nodup : (live.map Block.addr).Nodup
  size : ∀ x ∈ live, ∃ k, blockSize s x.addr = some k ∧ x.size ≤ k
  apart : ∀ x ∈ live, ∀ z ∈ live, x.addr ≠ z.addr → ∀ k m, blockSize s x.addr = some k →
    blockSize s z.addr = some m → ∀ y, InRange x.addr k y → ¬InRange z.addr m y
  headers : ∀ x ∈ live, ∀ k, blockSize s x.addr = some k → ∀ a arena, s.arenas a = some arena →
    ∀ y, InRange x.addr k y → ¬InRange a arenaSize y
  freeApart : ∀ x ∈ live, ∀ k, blockSize s x.addr = some k → ∀ d, ∀ b ∈ σ d,
    ∀ y, InRange x.addr k y → ¬InRange b (desc d).blockSize y

/-- `free` of a pointer -/
def Frees (s : State) (live : List Block) (s' : State) (σ : DescId → List ℕ) : Option ℕ → Prop
  | none => s' = s
  | some b => Released s live b s' σ ∧ SameBytes s s' (without live b)

/-- What a call does to the pages and the bytes: only the last block of its pages gives them back, the
bytes of other blocks stay, `realloc` copies as many bytes as both blocks have, and a failure changes
nothing. -/
def Call.Effect (s : State) (live : List Block) (result : Option ℕ) (s' : State)
    (σ : DescId → List ℕ) : Call → Prop
  | .malloc _ _ =>
    match result with
    | none => s' = s
    | some _ => s'.returned = s.returned ∧ SameBytes s s' live
  | .realloc _ oldBlock newSize =>
    if newSize = 0 then Frees s live s' σ oldBlock
    else
      match result, oldBlock with
      | none, _ => s' = s
      | some _, none => s'.returned = s.returned ∧ SameBytes s s' live
      | some b, some p => Released s (⟨b, newSize⟩ :: live) p s' σ ∧
          SameBytes s s' (without live p) ∧ ∀ k, blockSize s p = some k →
            ∀ i < min newSize k, s'.bytes (b + i) = s.bytes (p + i)
  | .free p => Frees s live s' σ p
  | .store _ _ => s'.returned = s.returned

/-- A call returns, leaves consistent arenas and does what it should. -/
def Conforms (lists : DescId → KList) (s : State) (live : List Block) (call : Call) : Prop :=
  ∃ result s' σ, call.exec lists s = some (result, s') ∧ Sound lists s' (call.after live result) σ ∧
    call.Effect s live result s' σ

/-- A call that is allowed and returns. -/
def Step (lists : DescId → KList) (s : State × List Block) (call : Call) (s' : State × List Block) :
    Prop :=
  call.Allowed s.1 s.2 ∧
    ∃ result, call.exec lists s.1 = some (result, s'.1) ∧ s'.2 = call.after s.2 result

/-- After `malloc_init`. -/
def start (m : Elems) (bytes : ℕ → UInt8) : State := ⟨m, Store.empty, bytes, []⟩

variable {lists : DescId → KList} {s s' : State} {live : List Block} {Q : DescId → List ℕ}
  {palloc : ℕ → Option ℕ} {size : ℕ} {x : Block}

/-! ### What is sound -/

theorem Sane.sound (hs : Sane lists s live Q) : Sound lists s live Q where
  wellFormed := hs.consistent.holds.wellFormed
  free d b := by
    have hblocks := hs.consistent.blocks
    constructor
    · intro hb
      obtain ⟨a, n, i, hk, hi, rfl⟩ := hblocks.freeBlocks d b hb
      obtain ⟨arena, harena, hkind⟩ := exists_arena hk
      exact ⟨(hblocks.free a d n hk i hi).mp hb, a, arena, i, harena, congrArg Prod.fst hkind, hi,
        rfl⟩
    · rintro ⟨hout, a, arena, i, harena, hd, hi, rfl⟩
      exact (hblocks.free a d 1 (kinds_small harena hd) i hi).mpr hout
  count a arena d harena hd := by
    have hk := kinds_small harena hd
    obtain ⟨i, hi, hlive⟩ := hs.used a d 1 hk
    have hcount := hs.consistent.count a arena d harena hd
    refine ⟨hcount, hcount ▸ freeCount_lt hi fun hmem ↦ ?_⟩
    exact (hs.consistent.blocks.free a d 1 hk i hi).mp hmem hlive
  nodup := hs.consistent.blocks.nodup
  size x hx := by
    obtain ⟨_, k, -, hk, hsize, -⟩ := hs.consistent.live_pages hx
    exact ⟨k, hk, hsize⟩
  apart x hx z hz hne k m hk hm y hy := hs.consistent.live_apart hx hz hne hk hm hy
  headers x hx k hk a arena harena y hy hin := by
    obtain ⟨arena', k', harena', hk', -, hrange⟩ := hs.consistent.live_pages hx
    obtain rfl := Option.some.inj (hk.symm.trans hk')
    have hka : s.kinds a = some arena.kind := by
      rw [State.kinds, harena, Option.map_some]
    have hpages : 0 < arena.pages := by
      cases hd : arena.desc with
      | some d => rw [Arena.pages, hd, Option.isSome_some, if_pos rfl]; exact Nat.zero_lt_one
      | none =>
        rw [Arena.pages, hd, Option.isSome_none, if_neg Bool.false_ne_true]
        exact (hs.consistent.layout.big a _ (kinds_big harena hd)).1
    have hin' : InRange a (PGSIZE * arena.pages) y := by
      simp only [InRange, arenaSize, PGSIZE] at hin ⊢
      omega
    by_cases hne : pgRoundDown x.addr = a
    · exact (hrange y hy).2 (hne ▸ hin)
    · exact hs.consistent.live_outside hx hk harena hne hy hin'
  freeApart x hx k hk d b hb y hy hin := by
    have hcons := hs.consistent
    obtain ⟨a, n, i, hka, hi, rfl⟩ := hcons.blocks.freeBlocks d b hb
    obtain ⟨arena, harena, hkind⟩ := exists_arena hka
    have hd : arena.desc = some d := congrArg Prod.fst hkind
    have hpages : arena.pages = n := congrArg Prod.snd hkind
    have hin' := hcons.layout.block_range hka hi hin
    by_cases hne : pgRoundDown x.addr = a
    · rcases hcons.liveAt hx with ⟨a', arena', d', j, h⟩ | ⟨a', arena', h⟩
      · obtain rfl : a' = a := (h.page hcons).symm.trans hne
        have hsame := Option.some.inj (harena.symm.trans h.found)
        obtain rfl : d = d' := Option.some.inj (hd.symm.trans (hsame ▸ h.kind))
        obtain rfl := Option.some.inj (hk.symm.trans (h.blockSize_eq hcons))
        rw [h.addr] at hy
        refine blockAt_apart (fun hji ↦ ?_) hy hin
        refine (hcons.blocks.free a' d n hka i hi).mp hb ?_
        exact hji ▸ h.addr ▸ List.mem_map_of_mem hx
      · obtain rfl : a' = a := (h.page hcons).symm.trans hne
        have hsame := Option.some.inj (harena.symm.trans h.found)
        exact Option.some_ne_none d (hd.symm.trans (hsame ▸ h.kind))
    · exact hcons.live_outside hx hk harena hne hy (hpages ▸ hin')

/-! ### `realloc` -/

/-- The bytes of the blocks do not matter to the allocator. -/
theorem Sane.bytes (hs : Sane lists s live Q) (bytes : ℕ → UInt8) :
    Sane lists { s with bytes := bytes } live Q :=
  ⟨⟨hs.consistent.holds, hs.consistent.layout, hs.consistent.blocks, hs.consistent.magic,
    hs.consistent.count⟩, hs.used⟩

/-- A live block has the same size while its arena stays. -/
theorem blockSize_congr {live' : List Block} {Q' : DescId → List ℕ} (hs : Consistent lists s live Q)
    (hs' : Consistent lists s' live' Q') (hx : x ∈ live)
    (hkinds : ∀ a k, s.kinds a = some k → s'.kinds a = some k) :
    blockSize s' x.addr = blockSize s x.addr := by
  rcases hs.liveAt hx with ⟨a, arena, d, i, h⟩ | ⟨a, arena, h⟩
  · obtain ⟨arena', h', hkind⟩ := exists_arena (hkinds a _ (kinds_small h.found h.kind))
    have hsmall : SmallAt s' x a arena' d i :=
      ⟨h', congrArg Prod.fst hkind, h.index, h.addr, h.size⟩
    rw [h.blockSize_eq hs, hsmall.blockSize_eq hs']
  · obtain ⟨arena', h', hkind⟩ := exists_arena (hkinds a _ (kinds_big h.found h.kind))
    have hd : arena'.desc = none := congrArg Prod.fst hkind
    have hcnt : arena'.freeCnt = arena.freeCnt := by
      have hk := (kinds_big h' hd).symm.trans (hkinds a _ (kinds_big h.found h.kind))
      exact congrArg Prod.snd (Option.some.inj hk)
    have hbig : BigAt s' x a arena' := ⟨h', hd, h.addr, hcnt ▸ h.size⟩
    rw [h.blockSize_eq hs, hbig.blockSize_eq hs', hcnt]

theorem copy_inside {bytes : ℕ → UInt8} {dst src size i : ℕ} (hi : i < size) :
    copy bytes dst src size (dst + i) = bytes (src + i) := by
  have hin : InRange dst size (dst + i) := ⟨Nat.le_add_right dst i, Nat.add_lt_add_left hi dst⟩
  rw [copy, if_pos hin, Nat.add_sub_cancel_left, Nat.add_comm]

theorem copy_outside {bytes : ℕ → UInt8} {dst src size y : ℕ} (hy : ¬InRange dst size y) :
    copy bytes dst src size y = bytes y :=
  if_neg hy

/-- `realloc` of a live block returns `NULL` with nothing changed, or a block with the bytes of the
old one, which is taken back. -/
theorem reallocLive_spec (hs : Sane lists s live Q) (hx : x ∈ live) (hzero : size ≠ 0)
    (hsize : NoWrap size) (hfresh : PallocFresh s palloc) :
    realloc lists palloc s (some x.addr) size = some (none, s) ∨
      ∃ b s' Q', realloc lists palloc s (some x.addr) size = some (some b, s') ∧
        Sane lists s' (⟨b, size⟩ :: without live x.addr) Q' ∧
        Released s (⟨b, size⟩ :: live) x.addr s' Q' ∧ SameBytes s s' (without live x.addr) ∧
        ∀ k, blockSize s x.addr = some k → ∀ i < min size k,
          s'.bytes (b + i) = s.bytes (x.addr + i) := by
  rcases malloc_spec hs hsize hfresh with hmalloc | ⟨b, s₁, hmalloc, hgrows⟩
  · refine Or.inl ?_
    rw [realloc, if_neg hzero, hmalloc]
    rfl
  obtain ⟨Q₁, hs₁⟩ := hgrows.sane
  obtain ⟨arena, k, harena, hk, -⟩ := hs.consistent.live_pages hx
  have hx₁ : x ∈ (⟨b, size⟩ : Block) :: live := List.mem_cons_of_mem _ hx
  have hsizes : ∀ z ∈ live, blockSize s₁ z.addr = blockSize s z.addr := fun z hz ↦
    blockSize_congr hs.consistent hs₁.consistent hz hgrows.kinds
  have hb : ∀ z ∈ live, z.addr ≠ b := by
    rintro z hz rfl
    have hmem : z.addr ∈ live.map Block.addr := List.mem_map_of_mem hz
    exact (List.nodup_cons.mp hs₁.consistent.blocks.nodup).1 hmem
  let s₂ : State := { s₁ with
    bytes := copy s₁.bytes b x.addr (if size < k then size else k) }
  have hs₂ : Sane lists s₂ (⟨b, size⟩ :: live) Q₁ := hs₁.bytes _
  obtain ⟨s', hfree, hshrinks⟩ := free_spec hs₂ hx₁
  obtain ⟨Q', hsane, hreleased⟩ := hshrinks.sane
  have hwithout : without (⟨b, size⟩ :: live) x.addr = ⟨b, size⟩ :: without live x.addr :=
    List.filter_cons_of_pos (decide_eq_true (hb x hx).symm)
  have hbytes := hshrinks.bytes
  rw [hwithout] at hsane hbytes
  obtain ⟨m, hm, hmsize⟩ := hs₂.sound.size ⟨b, size⟩ List.mem_cons_self
  replace hmsize : size ≤ m := hmsize
  refine Or.inr ⟨b, s', Q', ?_, hsane, ?_, fun z hz j hj y hy ↦ ?_, fun j hj i hi ↦ ?_⟩
  · have hk₁ := (hsizes x hx).trans hk
    rw [realloc, if_neg hzero, hmalloc]
    simp only [Option.bind_eq_bind, Option.bind_some, hk₁]
    rw [show free lists { s₁ with bytes := copy s₁.bytes b x.addr (if size < k then size else k) }
      (some x.addr) = some s' from hfree]
    rfl
  · obtain ⟨arena', harena', hpages⟩ := hreleased
    have hkind : arena'.pages = arena.pages := by
      have hka : s.kinds (pgRoundDown x.addr) = some arena.kind := by
        rw [State.kinds, harena, Option.map_some]
      obtain ⟨arena'', h'', hkind⟩ := exists_arena (hgrows.kinds _ _ hka)
      obtain rfl := Option.some.inj (harena'.symm.trans h'')
      exact congrArg Prod.snd hkind
    rw [hkind] at hpages
    exact ⟨arena, harena, hgrows.returned ▸ hpages⟩
  · obtain ⟨hz, hne⟩ := mem_without.mp hz
    have hz₂ : z ∈ (⟨b, size⟩ : Block) :: live := List.mem_cons_of_mem _ hz
    have hj₂ : blockSize s₂ z.addr = some j := (hsizes z hz).trans hj
    have hout : ¬InRange b (if size < k then size else k) y := fun hin ↦ by
      refine hs₂.consistent.live_apart hz₂ List.mem_cons_self (hb z hz) hj₂ hm hy ?_
      simp only [InRange] at hin ⊢
      split_ifs at hin <;> omega
    rw [hbytes z (List.mem_cons_of_mem _ (mem_without.mpr ⟨hz, hne⟩)) j hj₂ y hy]
    exact (copy_outside hout).trans (congrFun hgrows.bytes y)
  · obtain rfl := Option.some.inj (hk.symm.trans hj)
    have hmin : i < if size < k then size else k := by
      split_ifs <;> omega
    have hin : InRange b m (b + i) := by
      simp only [InRange]
      omega
    rw [hbytes ⟨b, size⟩ List.mem_cons_self m hm _ hin]
    exact (copy_inside hmin).trans (congrFun hgrows.bytes _)

/-! ### Runs -/

theorem SameBytes.of_eq (h : s'.bytes = s.bytes) : SameBytes s s' live :=
  fun _ _ _ _ y _ ↦ congrFun h y

/-- `free` of a pointer that may be `NULL` -/
theorem frees_spec (hs : Sane lists s live Q) {p : Option ℕ} (hp : IsLive live p) : ∃ s' Q',
    free lists s p = some s' ∧ Sane lists s' (dropBlock live p) Q' ∧ Frees s live s' Q' p := by
  cases p with
  | none => exact ⟨s, Q, rfl, hs, rfl⟩
  | some b =>
    obtain ⟨x, hx, rfl⟩ := List.mem_map.mp (hp b rfl)
    obtain ⟨s', hfree, hshrinks⟩ := free_spec hs hx
    obtain ⟨Q', hsane, hreleased⟩ := hshrinks.sane
    exact ⟨s', Q', hfree, hsane, hreleased, hshrinks.bytes⟩

/-- Every call that does not wrap does what it should. -/
theorem exec_spec (hs : Sane lists s live Q) {call : Call} (hallowed : call.Allowed s live)
    (hguard : call.Guard) : ∃ result s' Q', call.exec lists s = some (result, s') ∧
      Sane lists s' (call.after live result) Q' ∧ call.Effect s live result s' Q' := by
  cases call with
  | malloc palloc size =>
    rcases malloc_spec hs hguard hallowed.2 with hmalloc | ⟨b, s', hmalloc, hgrows⟩
    · exact ⟨none, s, Q, hmalloc, hs, rfl⟩
    · obtain ⟨Q', hsane⟩ := hgrows.sane
      exact ⟨some b, s', Q', hmalloc, hsane, hgrows.returned, SameBytes.of_eq hgrows.bytes⟩
  | realloc palloc oldBlock newSize =>
    obtain ⟨-, hfresh, hold⟩ := hallowed
    by_cases hzero : newSize = 0
    · obtain ⟨s', Q', hfree, hsane, hfrees⟩ := frees_spec hs hold
      refine ⟨none, s', Q', ?_, ?_, ?_⟩
      · rw [Call.exec, realloc, if_pos hzero, hfree]
        rfl
      · rwa [Call.after, if_pos hzero]
      · rwa [Call.Effect, if_pos hzero]
    · simp only [Call.exec, Call.after, Call.Effect, if_neg hzero]
      cases oldBlock with
      | none =>
        have hrealloc : realloc lists palloc s none newSize = malloc lists palloc s newSize := by
          rw [realloc, if_neg hzero]
          cases malloc lists palloc s newSize <;> rfl
        rw [hrealloc]
        rcases malloc_spec hs hguard hfresh with hmalloc | ⟨b, s', hmalloc, hgrows⟩
        · exact ⟨none, s, Q, hmalloc, hs, rfl⟩
        · obtain ⟨Q', hsane⟩ := hgrows.sane
          exact ⟨some b, s', Q', hmalloc, hsane, hgrows.returned, SameBytes.of_eq hgrows.bytes⟩
      | some p =>
        obtain ⟨x, hx, rfl⟩ := List.mem_map.mp (hold p rfl)
        rcases reallocLive_spec hs hx hzero hguard hfresh with
          hrealloc | ⟨b, s', Q', hrealloc, hsane, heffect⟩
        · exact ⟨none, s, Q, hrealloc, hs, rfl⟩
        · exact ⟨some b, s', Q', hrealloc, hsane, heffect⟩
  | free p =>
    obtain ⟨s', Q', hfree, hsane, hfrees⟩ := frees_spec hs hallowed
    refine ⟨none, s', Q', ?_, hsane, hfrees⟩
    rw [Call.exec, hfree]
    rfl
  | store a value => exact ⟨none, _, Q, rfl, hs.bytes _, rfl⟩

/-- `malloc_init` leaves empty free lists and no arenas. -/
theorem sane_start {m₀ m₁ : Elems} (hheaders : Headers lists m₀)
    (hinit : mallocInit lists m₀ = some m₁) (bytes : ℕ → UInt8) :
    Sane lists (start m₁ bytes) [] fun _ ↦ [] := by
  have hnone : ∀ a k, (start m₁ bytes).kinds a = some k → False := fun a k hk ↦
    absurd hk.symm (Option.some_ne_none k)
  have harenas : ∀ a arena, (start m₁ bytes).arenas a = some arena → False := fun a arena h ↦
    absurd h.symm (Option.some_ne_none arena)
  refine ⟨⟨holds_initLists hheaders List.mem_finRange hinit, ?_, ?_, fun a arena h ↦
    (harenas a arena h).elim, fun a arena _ h ↦ (harenas a arena h).elim⟩, fun a d n hk ↦
    (hnone a _ hk).elim⟩
  · exact ⟨fun a _ _ hk ↦ (hnone a _ hk).elim, fun a _ _ hk ↦ (hnone a _ hk).elim,
      fun a _ hk ↦ (hnone a _ hk).elim, fun a _ _ hk ↦ (hnone a _ hk).elim,
      fun a _ _ hk ↦ (hnone a _ hk).elim, fun a _ _ _ _ _ hk ↦ (hnone a _ hk).elim⟩
  · exact ⟨fun a _ _ hk ↦ (hnone a _ hk).elim, nofun, nofun, fun a _ hk ↦ (hnone a _ hk).elim,
      List.nodup_nil⟩

/-- In a run in which no computation of a number of pages wraps, the arenas stay consistent, and every
call that does not wrap does what it should. -/
theorem guarded_run_arenas {m₀ m₁ : Elems} {bytes : ℕ → UInt8} {calls : List Call}
    (hheaders : Headers lists m₀) (hinit : mallocInit lists m₀ = some m₁)
    (hrun : Run (fun s call s' ↦ call.Guard ∧ Step lists s call s') (start m₁ bytes, []) calls
      (s, live)) :
    (∃ σ, Sound lists s live σ) ∧
      ∀ call : Call, call.Allowed s live → call.Guard → Conforms lists s live call := by
  have hkeep : ∀ (t : State × List Block) (call : Call) (t' : State × List Block),
      (∃ Q, Sane lists t.1 t.2 Q) → (call.Guard ∧ Step lists t call t') →
        ∃ Q, Sane lists t'.1 t'.2 Q := by
    rintro ⟨t, tlive⟩ call ⟨t', tlive'⟩ ⟨Q, hs⟩ ⟨hguard, hallowed, result, hexec, hafter⟩
    obtain ⟨result', s', Q', hexec', hsane, -⟩ := exec_spec hs hallowed hguard
    obtain ⟨rfl, rfl⟩ := Prod.mk.inj (Option.some.inj (hexec.symm.trans hexec'))
    obtain rfl : tlive' = call.after tlive result := hafter
    exact ⟨Q', hsane⟩
  obtain ⟨Q, hs⟩ := Run.invariant hkeep hrun ⟨_, sane_start hheaders hinit bytes⟩
  refine ⟨⟨Q, hs.sound⟩, fun call hallowed hguard ↦ ?_⟩
  obtain ⟨result, s', Q', hexec, hsane, heffect⟩ := exec_spec hs hallowed hguard
  exact ⟨result, s', Q', hexec, hsane.sound, heffect⟩

/-- The heads and the tails of the lists in the first cells. -/
def firstCells (d : DescId) : KList := ⟨2 * d, 2 * d + 1⟩

/-- Cells for the heads and the tails of the lists. -/
def headerCells : Elems := fun a ↦ if a < 2 * descs.length then some ⟨none, none⟩ else none

theorem headers_firstCells : Headers firstCells headerCells := by
  refine ⟨by decide, by decide, fun i j hij a hi hj ↦ hij (Fin.ext ?_)⟩
  simp only [firstCells, List.mem_cons, List.not_mem_nil, or_false] at hi hj
  omega

/-- `malloc_init` returns. -/
theorem exists_mallocInit {m : Elems} (hheaders : Headers lists m) : ∃ m',
    mallocInit lists m = some m' ∧ ∀ x, (m' x).isSome = (m x).isSome := by
  have hapart : (List.finRange descs.length).Pairwise fun i j ↦
      [(lists i).head, (lists i).tail].Disjoint [(lists j).head, (lists j).tail] :=
    (List.nodup_finRange _).imp fun hij ↦ hheaders.disjoint _ _ hij
  obtain ⟨m', hinit, -, hedits⟩ := initLists_edits lists (List.finRange descs.length)
    (fun i _ ↦ hheaders.allocated i) (fun i _ ↦ hheaders.distinct i) hapart
  exact ⟨m', hinit, hedits.allocated⟩

/-- A `palloc` that has pages for one number of pages only. -/
def pallocOnly (cnt a : ℕ) : ℕ → Option ℕ := fun n ↦ if n = cnt then some a else none

theorem pallocFresh_only {cnt a : ℕ} (hfresh : FreshPages s.elems a cnt) :
    PallocFresh s (pallocOnly cnt a) := by
  intro n b hb
  rw [pallocOnly] at hb
  split_ifs at hb with hn
  obtain rfl := Option.some.inj hb
  exact hn ▸ hfresh

/-- A run that gets a block of `3000` bytes. -/
theorem guarded_run_arenas_malloc : ∃ s, (∃ σ, Sound firstCells s [⟨4120, 3000⟩] σ) ∧
    Conforms firstCells s [⟨4120, 3000⟩] (.free (some 4120)) := by
  obtain ⟨m, hinit, hcells⟩ := exists_mallocInit headers_firstCells
  have hfresh : FreshPages m 4096 1 := by
    refine ⟨rfl, by decide, fun x hx ↦ Option.not_isSome_iff_eq_none.mp fun hsome ↦ ?_⟩
    rw [hcells, headerCells] at hsome
    have hlarge : ¬x < 2 * descs.length := Nat.not_lt_of_le (Nat.le_trans (by decide) hx.1)
    rw [if_neg hlarge] at hsome
    exact absurd hsome (by decide)
  have hstep : ∃ s, NoWrap 3000 ∧ Step firstCells (start m fun _ ↦ 0, [])
      (.malloc (pallocOnly 1 4096) 3000) (s, [⟨4120, 3000⟩]) :=
    ⟨_, by decide, ⟨by decide, pallocFresh_only hfresh⟩, some 4120, rfl, rfl⟩
  obtain ⟨s, hguard, hstep⟩ := hstep
  have hboth : Call.Guard (.malloc (pallocOnly 1 4096) 3000) ∧ Step firstCells (start m fun _ ↦ 0, [])
      (.malloc (pallocOnly 1 4096) 3000) (s, [⟨4120, 3000⟩]) := ⟨hguard, hstep⟩
  have h := guarded_run_arenas headers_firstCells hinit (.cons hboth (.nil _))
  refine ⟨s, h.1, h.2 (.free (some 4120)) (fun b hb ↦ ?_) trivial⟩
  obtain rfl := Option.some.inj hb
  exact List.mem_cons_self

/-- Two live blocks at the same address: the computation of their number of pages wraps to `0`, for
which `palloc_get_multiple` returns the first page of the pool each time. -/
theorem overlapping_blocks : ¬∀ (lists : DescId → KList) (m₀ m₁ : Elems) (bytes : ℕ → UInt8)
    (calls : List Call) (s : State) (live : List Block), Headers lists m₀ →
    mallocInit lists m₀ = some m₁ →
    Run (Step lists) (start m₁ bytes, []) calls (s, live) → ∃ σ, Sound lists s live σ := by
  intro hall
  obtain ⟨m, hinit, -⟩ := exists_mallocInit headers_firstCells
  have hpalloc : ∀ s, PallocFresh s (pallocOnly 0 4096) := fun s ↦ pallocFresh_only
    ⟨rfl, by decide, fun x hx ↦ absurd (Nat.lt_of_le_of_lt hx.1 hx.2) (Nat.lt_irrefl _)⟩
  have hstep : ∀ s live, ∃ s', Step firstCells (s, live) (.malloc (pallocOnly 0 4096) (2 ^ 64 - 25))
      (s', ⟨4120, 2 ^ 64 - 25⟩ :: live) := fun s live ↦
    ⟨_, ⟨by decide, hpalloc s⟩, some 4120, rfl, rfl⟩
  obtain ⟨s₁, h₁⟩ := hstep (start m fun _ ↦ 0) []
  obtain ⟨s₂, h₂⟩ := hstep s₁ _
  obtain ⟨σ, hsound⟩ := hall firstCells headerCells m _ _ s₂ _ headers_firstCells hinit
    (.cons h₁ (.cons h₂ (.nil _)))
  exact absurd hsound.nodup (by decide)

end Jungle.Arenas
