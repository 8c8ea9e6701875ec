import Jungle.Arenas.Runs

/-!
# Requests of any size

`calloc`, and which requests the allocator honours. The number of pages of a big block wraps for the
last `4119` sizes, and the test of `calloc` misses the products that wrap to a number that is not below
a factor. Such a request gets a block that is too small, unless there is no memory even for that
(`requests_honoured_iff`).
-/

set_option autoImplicit false
set_option relaxedAutoImplicit false

namespace Jungle.Arenas

open Jungle.Lib Jungle.KernelList Jungle.Pages

/-- `calloc (a, b)`: the block, if any, and the state. -/
def calloc (lists : DescId → KList) (palloc : ℕ → Option ℕ) (s : State) (a b : ℕ) :
    Option (Option ℕ × State) :=
  let size := a * b % sizeMod
  if size < a ∨ size < b then some (none, s)
  else do
    let (p, s) ← malloc lists palloc s size
    match p with
    | none => return (none, s)
    | some p => return (some p, { s with bytes := fill s.bytes p size 0 })

/-- The bytes of a block are behind the header of an arena, in its pages, and in no header and no other
live block. -/
structure Usable (s : State) (live : List Block) (b size : ℕ) : Prop where
  pages : ∃ a arena, s.arenas a = some arena ∧ a + arenaSize ≤ b ∧ b + size ≤ a + PGSIZE * arena.pages
  headers : ∀ a arena, s.arenas a = some arena → ∀ y, InRange b size y → ¬InRange a arenaSize y
  apart : ∀ x ∈ live, ∀ y, InRange b size y → ¬InRange x.addr x.size y

/-- `malloc (size)` returns `NULL` or a block of the size. -/
def MallocHonours (lists : DescId → KList) (palloc : ℕ → Option ℕ) (s : State) (live : List Block)
    (size : ℕ) : Prop :=
  ∃ p s', malloc lists palloc s size = some (p, s') ∧ ∀ b ∈ p, Usable s' live b size

/-- `calloc (a, b)` returns `NULL` or a block of `a * b` zero bytes. -/
def CallocHonours (lists : DescId → KList) (palloc : ℕ → Option ℕ) (s : State) (live : List Block)
    (a b : ℕ) : Prop :=
  ∃ p s', calloc lists palloc s a b = some (p, s') ∧
    ∀ x ∈ p, Usable s' live x (a * b) ∧ ∀ i < a * b, s'.bytes (x + i) = 0

/-- There is no free block for the size, and no memory for new ones. -/
def Exhausted (lists : DescId → KList) (palloc : ℕ → Option ℕ) (s : State) (size : ℕ) : Prop :=
  match descs.findFinIdx? (fun d ↦ decide (size ≤ d.blockSize)) with
  | none => palloc (bigPages size) = none
  | some d => listEmpty s.elems (lists d) = some true ∧ palloc 1 = none

/-- The test of `calloc` finds the product too small. -/
def Rejected (a b : ℕ) : Prop := a * b % sizeMod < a ∨ a * b % sizeMod < b

variable {lists : DescId → KList} {s s' : State} {live : List Block} {Q : DescId → List ℕ}
  {palloc : ℕ → Option ℕ} {size a b : ℕ} {p : Option ℕ}

/-! ### When there is no memory -/

theorem malloc_exhausted (hpos : 0 < size) (h : Exhausted lists palloc s size) :
    malloc lists palloc s size = some (none, s) := by
  unfold Exhausted at h
  rw [malloc, if_neg hpos.ne']
  cases hfind : descs.findFinIdx? (fun d ↦ decide (size ≤ d.blockSize)) with
  | none =>
    simp only [hfind] at h
    dsimp only
    rw [h]
  | some d =>
    simp only [hfind] at h
    dsimp only
    rw [h.1, h.2]
    rfl

/-- `malloc` returns `NULL` only when there is no memory. -/
theorem exhausted_of_malloc (hs : Sane lists s live Q) (hpos : 0 < size)
    (h : malloc lists palloc s size = some (none, s')) : Exhausted lists palloc s size := by
  rw [malloc, if_neg hpos.ne'] at h
  unfold Exhausted
  cases hfind : descs.findFinIdx? (fun d ↦ decide (size ≤ d.blockSize)) with
  | none =>
    simp only [hfind] at h
    dsimp only
    cases hpalloc : palloc (bigPages size) with
    | none => rfl
    | some a =>
      rw [hpalloc] at h
      exact absurd (Prod.mk.inj (Option.some.inj h)).1 (Option.some_ne_none _)
  | some d =>
    simp only [hfind] at h
    dsimp only
    have htake : ∀ t, (takeBlock lists t d).bind (fun r ↦ some (some r.1, r.2)) ≠
        some ((none : Option ℕ), s') := by
      intro t ht
      obtain ⟨r, -, hr⟩ := Option.bind_eq_some_iff.mp ht
      exact absurd (Prod.mk.inj (Option.some.inj hr)).1 (Option.some_ne_none _)
    rw [hs.consistent.holds.listEmpty_eq, Option.bind_eq_bind, Option.bind_some] at h
    rw [hs.consistent.holds.listEmpty_eq]
    split_ifs at h with hempty
    · refine ⟨congrArg some hempty, ?_⟩
      cases hpalloc : palloc 1 with
      | none => rfl
      | some a =>
        rw [hpalloc] at h
        obtain ⟨t, -, ht⟩ := Option.bind_eq_some_iff.mp h
        exact absurd ht (htake t)
    · exact absurd h (htake s)

/-! ### Sizes that wrap -/

theorem bigPages_wrap (hsize : size < sizeMod) (h : ¬NoWrap size) : bigPages size ≤ 1 := by
  unfold NoWrap at h
  unfold bigPages
  simp only [arenaSize, PGSIZE, sizeMod] at hsize h ⊢
  omega

/-- There is no descriptor for a size that wraps. -/
theorem findFinIdx_wrap (h : ¬NoWrap size) :
    descs.findFinIdx? (fun d ↦ decide (size ≤ d.blockSize)) = none := by
  refine List.findFinIdx?_eq_none_iff.mpr fun d hd ↦ ?_
  have hsmall : d.blockSize ≤ 1024 := by
    revert d
    decide
  unfold NoWrap at h
  simp only [arenaSize, PGSIZE, sizeMod] at h
  rw [decide_eq_true_eq]
  omega

/-- No arena has more bytes than there are values of a `size_t`. -/
def Bounded (s : State) : Prop :=
  ∀ a arena, s.arenas a = some arena → PGSIZE * arena.pages < sizeMod

theorem Consistent.bounded (hs : Consistent lists s live Q) : Bounded s := by
  intro a arena harena
  cases hd : arena.desc with
  | some d =>
    rw [Arena.pages, hd, Option.isSome_some, if_pos rfl]
    decide
  | none =>
    rw [Arena.pages, hd, Option.isSome_none, if_neg Bool.false_ne_true]
    exact (hs.layout.big a _ (kinds_big harena hd)).2

/-- Every block is in a bounded arena. -/
theorem malloc_bounded (hs : Sane lists s live Q) (hsize : size < sizeMod)
    (hfresh : PallocFresh s palloc) (h : malloc lists palloc s size = some (p, s')) :
    Bounded s' := by
  by_cases hwrap : NoWrap size
  · rcases malloc_spec hs hwrap hfresh with hmalloc | ⟨b, t, hmalloc, hgrows⟩
    · obtain ⟨rfl, rfl⟩ := Prod.mk.inj (Option.some.inj (h.symm.trans hmalloc))
      exact hs.consistent.bounded
    · obtain ⟨rfl, rfl⟩ := Prod.mk.inj (Option.some.inj (h.symm.trans hmalloc))
      exact hgrows.sane.choose_spec.consistent.bounded
  have hpos : size ≠ 0 := by
    rintro rfl
    exact hwrap (by decide)
  rw [malloc, if_neg hpos, findFinIdx_wrap hwrap] at h
  dsimp only at h
  split at h
  · obtain ⟨rfl, rfl⟩ := Prod.mk.inj (Option.some.inj h)
    exact hs.consistent.bounded
  · obtain ⟨rfl, rfl⟩ := Prod.mk.inj (Option.some.inj h)
    intro a' arena harena
    dsimp only at harena
    rw [Store.put_apply] at harena
    split_ifs at harena
    · obtain rfl := Option.some.inj harena
      have hpages := bigPages_wrap hsize hwrap
      change PGSIZE * bigPages size < sizeMod
      unfold PGSIZE sizeMod
      omega
    · exact hs.consistent.bounded a' arena harena

/-- A block in a bounded arena has a size that does not wrap. -/
theorem Usable.noWrap (h : Usable s live b size) (hbounded : Bounded s) : NoWrap size := by
  obtain ⟨a, arena, harena, hstart, hend⟩ := h.pages
  have hpages := hbounded a arena harena
  unfold NoWrap
  simp only [arenaSize, PGSIZE, sizeMod] at hstart hend hpages ⊢
  omega

/-! ### Sizes that do not wrap -/

/-- The new block of a consistent allocator is usable. -/
theorem Sane.usable (hs : Sane lists s (⟨b, size⟩ :: live) Q) : Usable s live b size := by
  have hcons := hs.consistent
  have hmem : (⟨b, size⟩ : Block) ∈ (⟨b, size⟩ : Block) :: live := List.mem_cons_self
  obtain ⟨k, hk, hsize⟩ := hs.sound.size _ hmem
  replace hsize : size ≤ k := hsize
  have hwider : ∀ y, InRange b size y → InRange b k y := fun y hy ↦
    ⟨hy.1, Nat.lt_of_lt_of_le hy.2 (Nat.add_le_add_left hsize b)⟩
  refine ⟨?_, fun a arena harena y hy ↦ hs.sound.headers _ hmem k hk a arena harena y (hwider y hy),
    fun x hx y hy hin ↦ ?_⟩
  · rcases hcons.liveAt hmem with ⟨a, arena, d, i, h⟩ | ⟨a, arena, h⟩
    · have hend := block_end h.index
      have haddr : b = blockAt a d i := h.addr
      have hfits : size ≤ (desc d).blockSize := h.size
      refine ⟨a, arena, h.found, ?_, ?_⟩
      · rw [haddr, blockAt]
        exact Nat.le_add_right ..
      · rw [Arena.pages, h.kind, Option.isSome_some, if_pos rfl, haddr, blockAt]
        omega
    · have haddr : b = a + arenaSize := h.addr
      have hfits : size + arenaSize ≤ PGSIZE * arena.freeCnt := h.size
      refine ⟨a, arena, h.found, haddr.ge, ?_⟩
      rw [Arena.pages, h.kind, Option.isSome_none, if_neg Bool.false_ne_true, haddr]
      omega
  · obtain ⟨m, hm, hxsize⟩ := hs.sound.size x (List.mem_cons_of_mem _ hx)
    have hxmem : x.addr ∈ live.map Block.addr := List.mem_map_of_mem hx
    have hne : b ≠ x.addr := by
      rintro rfl
      exact (List.nodup_cons.mp hs.sound.nodup).1 hxmem
    exact hs.sound.apart _ hmem x (List.mem_cons_of_mem _ hx) hne k m hk hm y (hwider y hy)
      ⟨hin.1, Nat.lt_of_lt_of_le hin.2 (Nat.add_le_add_left hxsize x.addr)⟩

/-- `malloc` honours a size if it does not wrap or there is no memory. -/
theorem mallocHonours_iff (hs : Sane lists s live Q) (hfresh : PallocFresh s palloc)
    (hpos : 0 < size) (hsize : size < sizeMod) :
    MallocHonours lists palloc s live size ↔ NoWrap size ∨ Exhausted lists palloc s size := by
  constructor
  · rintro ⟨p, s', hmalloc, husable⟩
    cases p with
    | none => exact Or.inr (exhausted_of_malloc hs hpos hmalloc)
    | some b => exact Or.inl ((husable b rfl).noWrap (malloc_bounded hs hsize hfresh hmalloc))
  · rintro (hwrap | hexhausted)
    · rcases malloc_spec hs hwrap hfresh with hmalloc | ⟨b, s', hmalloc, hgrows⟩
      · exact ⟨none, s, hmalloc, nofun⟩
      · refine ⟨some b, s', hmalloc, fun x hx ↦ ?_⟩
        obtain rfl := Option.some.inj hx
        exact hgrows.sane.choose_spec.usable
    · exact ⟨none, s, malloc_exhausted hpos hexhausted, nofun⟩

/-- `calloc` honours a product if it rejects it, the product does not wrap, or there is no memory. -/
theorem callocHonours_iff (hs : Sane lists s live Q) (hfresh : PallocFresh s palloc)
    (hpos : 0 < a * b) : CallocHonours lists palloc s live a b ↔
      Rejected a b ∨ NoWrap (a * b) ∨ Exhausted lists palloc s (a * b % sizeMod) := by
  by_cases hrejected : Rejected a b
  · exact iff_of_true ⟨none, s, if_pos hrejected, nofun⟩ (Or.inl hrejected)
  rw [or_iff_right hrejected]
  have hcalloc : calloc lists palloc s a b = _ := if_neg hrejected
  have hsize : a * b % sizeMod < sizeMod := Nat.mod_lt _ (by decide)
  have hpos' : 0 < a * b % sizeMod := by
    have ha : 0 < a := Nat.pos_of_mul_pos_right hpos
    unfold Rejected at hrejected
    omega
  have hmod : NoWrap (a * b) → a * b % sizeMod = a * b := fun hwrap ↦ by
    refine Nat.mod_eq_of_lt ?_
    unfold NoWrap arenaSize PGSIZE at hwrap
    omega
  unfold CallocHonours
  rw [hcalloc]
  constructor
  · rintro ⟨p, s', hcall, husable⟩
    obtain ⟨⟨q, t⟩, hmalloc, hresult⟩ := Option.bind_eq_some_iff.mp hcall
    cases q with
    | none => exact Or.inr (exhausted_of_malloc hs hpos' hmalloc)
    | some x =>
      obtain ⟨rfl, rfl⟩ := Prod.mk.inj (Option.some.inj hresult)
      have hbounded : Bounded t := malloc_bounded hs hsize hfresh hmalloc
      exact Or.inl ((husable x rfl).1.noWrap hbounded)
  · rintro (hwrap | hexhausted)
    · rw [hmod hwrap]
      rcases malloc_spec hs hwrap hfresh with hmalloc | ⟨x, t, hmalloc, hgrows⟩
      · rw [hmalloc]
        exact ⟨none, s, rfl, nofun⟩
      · rw [hmalloc]
        refine ⟨some x, _, rfl, fun y hy ↦ ?_⟩
        obtain rfl := Option.some.inj hy
        exact ⟨(hgrows.sane.choose_spec.bytes _).usable, fun i hi ↦
          if_pos ⟨Nat.le_add_right x i, Nat.add_lt_add_left hi x⟩⟩
    · rw [malloc_exhausted hpos' hexhausted]
      exact ⟨none, s, rfl, nofun⟩

/-! ### Runs -/

/-- The calls of `malloc`, `realloc` and `free`, stores, and `calloc`. -/
inductive Request
  | call (c : Call)
  | calloc (palloc : ℕ → Option ℕ) (a b : ℕ)

/-- What callers may do: the arguments are of type `size_t`, the blocks are live, and bytes are stored
in live blocks only. -/
def Request.Allowed (s : State) (live : List Block) : Request → Prop
  | .call (.malloc palloc size) => size < sizeMod ∧ PallocFresh s palloc
  | .call (.realloc palloc oldBlock newSize) =>
    newSize < sizeMod ∧ PallocFresh s palloc ∧ IsLive live oldBlock
  | .call c => c.Allowed s live
  | .calloc palloc a b => a < sizeMod ∧ b < sizeMod ∧ PallocFresh s palloc

/-- The block that a request gets, if any, and the state after it. -/
def Request.exec (lists : DescId → KList) (s : State) : Request → Option (Option ℕ × State)
  | .call c => c.exec lists s
  | .calloc palloc a b => Arenas.calloc lists palloc s a b

/-- The live blocks after a request that has got `result`. -/
def Request.after (live : List Block) (result : Option ℕ) : Request → List Block
  | .call c => c.after live result
  | .calloc _ a b => (result.map fun x ↦ ⟨x, a * b⟩).toList ++ live

/-- A request that is allowed and returns. -/
def RequestStep (lists : DescId → KList) (s : State × List Block) (r : Request)
    (s' : State × List Block) : Prop :=
  r.Allowed s.1 s.2 ∧
    ∃ result, r.exec lists s.1 = some (result, s'.1) ∧ s'.2 = r.after s.2 result

/-- The request does not wrap, is rejected or finds no memory. -/
def Request.Honest (lists : DescId → KList) (s : State) : Request → Prop
  | .call (.malloc palloc size) => NoWrap size ∨ Exhausted lists palloc s size
  | .call (.realloc palloc _ newSize) => NoWrap newSize ∨ Exhausted lists palloc s newSize
  | .call _ => True
  | .calloc palloc a b => Rejected a b ∨ NoWrap (a * b) ∨ Exhausted lists palloc s (a * b % sizeMod)

theorem pos_of_not_noWrap (h : ¬NoWrap size) : 0 < size := by
  refine Nat.pos_of_ne_zero ?_
  rintro rfl
  exact h (by decide)

/-- A call that does not wrap keeps the allocator consistent. -/
theorem guarded_sane (hs : Sane lists s live Q) {c : Call} (hallowed : c.Allowed s live)
    (hguard : c.Guard) (hexec : c.exec lists s = some (p, s')) :
    ∃ Q', Sane lists s' (c.after live p) Q' := by
  obtain ⟨result, t, Q', hexec', hsane, -⟩ := exec_spec hs hallowed hguard
  obtain ⟨rfl, rfl⟩ := Prod.mk.inj (Option.some.inj (hexec.symm.trans hexec'))
  exact ⟨Q', hsane⟩

theorem NoWrap.fits (h : NoWrap size) : size + arenaSize < sizeMod := by
  unfold NoWrap PGSIZE at h
  omega

/-- `calloc` keeps the allocator consistent where it is honest. -/
theorem calloc_sane (hs : Sane lists s live Q) (hfresh : PallocFresh s palloc)
    (hhonest : Rejected a b ∨ NoWrap (a * b) ∨ Exhausted lists palloc s (a * b % sizeMod))
    (hexec : calloc lists palloc s a b = some (p, s')) :
    ∃ Q', Sane lists s' ((p.map fun x ↦ ⟨x, a * b⟩).toList ++ live) Q' := by
  by_cases hrejected : Rejected a b
  · have hcalloc : calloc lists palloc s a b = some (none, s) := if_pos hrejected
    obtain ⟨rfl, rfl⟩ := Prod.mk.inj (Option.some.inj (hexec.symm.trans hcalloc))
    exact ⟨Q, hs⟩
  have hcalloc : calloc lists palloc s a b = _ := if_neg hrejected
  obtain ⟨⟨q, t⟩, hmalloc, hresult⟩ := Option.bind_eq_some_iff.mp (hcalloc.symm.trans hexec)
  by_cases hwrap : NoWrap (a * b)
  · have hlt : a * b < sizeMod := Nat.lt_of_le_of_lt (Nat.le_add_right _ arenaSize) hwrap.fits
    rw [Nat.mod_eq_of_lt hlt] at hmalloc
    obtain ⟨Q', hsane⟩ := guarded_sane (c := .malloc palloc (a * b)) hs ⟨hwrap.fits, hfresh⟩ hwrap
      hmalloc
    cases q with
    | none =>
      obtain ⟨rfl, rfl⟩ := Prod.mk.inj (Option.some.inj hresult)
      exact ⟨Q', hsane⟩
    | some x =>
      obtain ⟨rfl, rfl⟩ := Prod.mk.inj (Option.some.inj hresult)
      exact ⟨Q', hsane.bytes _⟩
  · have hexhausted := (hhonest.resolve_left hrejected).resolve_left hwrap
    have hpos : 0 < a * b % sizeMod := by
      have hprod := Nat.pos_of_mul_pos_right (pos_of_not_noWrap hwrap)
      unfold Rejected at hrejected
      omega
    obtain ⟨rfl, rfl⟩ :=
      Prod.mk.inj (Option.some.inj (hmalloc.symm.trans (malloc_exhausted hpos hexhausted)))
    obtain ⟨rfl, rfl⟩ := Prod.mk.inj (Option.some.inj hresult)
    exact ⟨Q, hs⟩

/-- An honest request keeps the allocator consistent. -/
theorem request_sane (hs : Sane lists s live Q) {r : Request} (hallowed : r.Allowed s live)
    (hhonest : r.Honest lists s) (hexec : r.exec lists s = some (p, s')) :
    ∃ Q', Sane lists s' (r.after live p) Q' := by
  cases r with
  | calloc palloc a b => exact calloc_sane hs hallowed.2.2 hhonest hexec
  | call c =>
    cases c with
    | free p => exact guarded_sane (c := .free p) hs hallowed trivial hexec
    | store a value => exact guarded_sane (c := .store a value) hs hallowed trivial hexec
    | malloc palloc size =>
      by_cases hwrap : NoWrap size
      · exact guarded_sane (c := .malloc palloc size) hs ⟨hwrap.fits, hallowed.2⟩ hwrap hexec
      · have hnone := malloc_exhausted (pos_of_not_noWrap hwrap) (hhonest.resolve_left hwrap)
        obtain ⟨rfl, rfl⟩ := Prod.mk.inj (Option.some.inj (hexec.symm.trans hnone))
        exact ⟨Q, hs⟩
    | realloc palloc oldBlock newSize =>
      by_cases hwrap : NoWrap newSize
      · exact guarded_sane (c := .realloc palloc oldBlock newSize) hs ⟨hwrap.fits, hallowed.2⟩ hwrap
          hexec
      · have hpos := pos_of_not_noWrap hwrap
        have hnone : realloc lists palloc s oldBlock newSize = some (none, s) := by
          rw [realloc, if_neg hpos.ne', malloc_exhausted hpos (hhonest.resolve_left hwrap)]
          cases oldBlock <;> rfl
        obtain ⟨rfl, rfl⟩ := Prod.mk.inj (Option.some.inj (hexec.symm.trans hnone))
        refine ⟨Q, ?_⟩
        simp only [Request.after, Call.after, if_neg hpos.ne']
        exact hs

/-- After any honest requests, `malloc` and `calloc` honour a request if and only if it is honest. -/
theorem requests_honoured_iff {m₀ m₁ : Elems} {bytes : ℕ → UInt8} {requests : List Request}
    (hheaders : Headers lists m₀) (hinit : mallocInit lists m₀ = some m₁)
    (hrun : Run (fun s r s' ↦ r.Honest lists s.1 ∧ RequestStep lists s r s') (start m₁ bytes, [])
      requests (s, live)) (hfresh : PallocFresh s palloc) :
    (∀ size, 0 < size → size < sizeMod → (MallocHonours lists palloc s live size ↔
      NoWrap size ∨ Exhausted lists palloc s size)) ∧
    ∀ a b, a < sizeMod → b < sizeMod → 0 < a * b → (CallocHonours lists palloc s live a b ↔
      Rejected a b ∨ NoWrap (a * b) ∨ Exhausted lists palloc s (a * b % sizeMod)) := by
  have hkeep : ∀ (t : State × List Block) (r : Request) (t' : State × List Block),
      (∃ Q, Sane lists t.1 t.2 Q) → (r.Honest lists t.1 ∧ RequestStep lists t r t') →
        ∃ Q, Sane lists t'.1 t'.2 Q := by
    rintro ⟨t, tlive⟩ r ⟨t', tlive'⟩ ⟨Q, hs⟩ ⟨hhonest, hallowed, result, hexec, hafter⟩
    obtain rfl : tlive' = r.after tlive result := hafter
    exact request_sane hs hallowed hhonest hexec
  obtain ⟨Q, hs⟩ := Run.invariant hkeep hrun ⟨_, sane_start hheaders hinit bytes⟩
  exact ⟨fun size hpos hsize ↦ mallocHonours_iff hs hfresh hpos hsize,
    fun a b _ _ hpos ↦ callocHonours_iff hs hfresh hpos⟩

/-- A `palloc` that has pages for every number of pages. -/
def pallocAlways (a : ℕ) : ℕ → Option ℕ := fun _ ↦ some a

/-- The allocator after `malloc_init`, with memory above the lists. -/
theorem exists_start : ∃ m, mallocInit firstCells headerCells = some m ∧
    PallocFresh (start m fun _ ↦ 0) (pallocAlways 4096) := by
  obtain ⟨m, hinit, hcells⟩ := exists_mallocInit headers_firstCells
  refine ⟨m, hinit, fun n a ha ↦ ?_⟩
  obtain rfl := Option.some.inj ha
  refine ⟨rfl, by decide, fun x hx ↦ Option.not_isSome_iff_eq_none.mp fun hsome ↦ ?_⟩
  rw [show (start m fun _ ↦ 0).elems x = m x from rfl, hcells, headerCells] at hsome
  have hlarge : ¬x < 2 * descs.length := Nat.not_lt_of_le (Nat.le_trans (by decide) hx.1)
  rw [if_neg hlarge] at hsome
  exact absurd hsome (by decide)

/-- The first request for `2 ^ 64 - 1` bytes gets a page, and the first `calloc` of `2 ^ 33` elements of
`2 ^ 31 + 1` bytes gets `2 ^ 33` bytes. -/
theorem not_requests_honoured : (¬∀ (lists : DescId → KList) (m₀ m₁ : Elems) (bytes : ℕ → UInt8)
    (requests : List Request) (s : State) (live : List Block) (palloc : ℕ → Option ℕ) (size : ℕ),
    Headers lists m₀ → mallocInit lists m₀ = some m₁ →
    Run (RequestStep lists) (start m₁ bytes, []) requests (s, live) → PallocFresh s palloc →
    0 < size → size < sizeMod → MallocHonours lists palloc s live size) ∧
    ¬∀ (lists : DescId → KList) (m₀ m₁ : Elems) (bytes : ℕ → UInt8)
    (requests : List Request) (s : State) (live : List Block) (palloc : ℕ → Option ℕ) (a b : ℕ),
    Headers lists m₀ → mallocInit lists m₀ = some m₁ →
    Run (RequestStep lists) (start m₁ bytes, []) requests (s, live) → PallocFresh s palloc →
    a < sizeMod → b < sizeMod → 0 < a * b → CallocHonours lists palloc s live a b := by
  obtain ⟨m, hinit, hfresh⟩ := exists_start
  have hsane := sane_start headers_firstCells hinit fun _ ↦ 0
  constructor
  · intro hall
    have hhonours := hall _ _ _ _ [] _ _ _ (2 ^ 64 - 1) headers_firstCells hinit (.nil _) hfresh
      (by decide) (by decide)
    rcases (mallocHonours_iff hsane hfresh (by decide) (by decide)).mp hhonours with hwrap | hnone
    · exact absurd hwrap (by decide)
    · exact absurd hnone (Option.some_ne_none 4096)
  · intro hall
    have hhonours := hall _ _ _ _ [] _ _ _ (2 ^ 33) (2 ^ 31 + 1) headers_firstCells hinit (.nil _)
      hfresh (by decide) (by decide) (by decide)
    rcases (callocHonours_iff hsane hfresh (by decide)).mp hhonours with hrejected | hwrap | hnone
    · exact absurd hrejected (by unfold Rejected; decide)
    · exact absurd hwrap (by decide)
    · exact absurd hnone (Option.some_ne_none 4096)

/-- After `calloc (3, 1000)`, requests for `3000` bytes are honoured where there is no memory left. -/
theorem requests_honoured_iff_calloc : ∃ s, MallocHonours firstCells (fun _ ↦ none) s
    [⟨4120, 3000⟩] 3000 ∧ CallocHonours firstCells (fun _ ↦ none) s [⟨4120, 3000⟩] 3 1000 := by
  obtain ⟨m, hinit, hfresh⟩ := exists_start
  have hstep : ∃ s, RequestStep firstCells (start m fun _ ↦ 0, [])
      (.calloc (pallocAlways 4096) 3 1000) (s, [⟨4120, 3000⟩]) :=
    ⟨_, ⟨by decide, by decide, hfresh⟩, some 4120, rfl, rfl⟩
  obtain ⟨s, hstep⟩ := hstep
  have hboth : Request.Honest firstCells (start m fun _ ↦ 0) (.calloc (pallocAlways 4096) 3 1000) ∧
      RequestStep firstCells (start m fun _ ↦ 0, []) (.calloc (pallocAlways 4096) 3 1000)
        (s, [⟨4120, 3000⟩]) := ⟨Or.inr (Or.inl (by decide)), hstep⟩
  have hnone : PallocFresh s fun _ ↦ none := nofun
  obtain ⟨hmalloc, hcalloc⟩ := requests_honoured_iff headers_firstCells hinit
    (.cons hboth (.nil _)) hnone
  exact ⟨s, (hmalloc 3000 (by decide) (by decide)).mpr (Or.inl (by decide)),
    (hcalloc 3 1000 (by decide) (by decide) (by decide)).mpr (Or.inr (Or.inl (by decide)))⟩

end Jungle.Arenas
