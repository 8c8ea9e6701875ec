import Jungle.Lib.Run
import Jungle.MallocLab.Resizing

/-!
# Runs of the allocator

A caller asks for blocks, has them resized, gives them back and fills the payloads of those that are
live. As long as no payload of at most 8 bytes gets a block of 16 bytes and `mem_sbrk` grants no request
that does not fit into an `int`, the live payloads are aligned, lie in the heap and are disjoint, and
each keeps its contents (`run_safe`).
-/

set_option autoImplicit false
set_option relaxedAutoImplicit false

namespace Jungle.MallocLab

open Jungle.Lib

variable {s s' : State} {blocks blocks' l r : List Block} {b c q : Block} {fl : List ℕ}
  {size n p x : ℕ} {m : Bytes}

/-! ### The first heap -/

/-- The words that `mm_init` writes. -/
def initialMem (m : Bytes) (p : ℕ) : Bytes :=
  (((m.store p WSIZE 0).store (p + 1 * WSIZE) WSIZE (pack DSIZE 1)).store (p + 2 * WSIZE) WSIZE
    (pack DSIZE 1)).store (p + 3 * WSIZE) WSIZE (pack 0 1)

/-- The heap before it grows for the first time. -/
def State.initial (s : State) : State :=
  { s with mem := initialMem s.mem s.startBrk, brk := s.startBrk + 16, freeListp := 0 }

/-- It has no blocks but the prologue and the epilogue. -/
theorem heap_initial (h : s.Placed) : Heap s.initial [] [] := by
  have hmax : MAX_HEAP = 20971520 := rfl
  have harena : ∀ i, i ≤ 12 → InArena s.initial (s.startBrk + i) WSIZE := by
    intro i hi
    unfold InArena State.initial WSIZE
    dsimp only
    omega
  have hsecond : get s.initial (s.startBrk + 4) = some (pack DSIZE 1) := by
    rw [get_eq (harena 4 (by decide))]
    unfold State.initial initialMem
    rw [Bytes.load_store_of_apart (by unfold WSIZE; omega),
      Bytes.load_store_of_apart (by unfold WSIZE; omega)]
    exact congrArg some Bytes.load_store_self
  have hthird : get s.initial (s.startBrk + 8) = some (pack DSIZE 1) := by
    rw [get_eq (harena 8 (by decide))]
    unfold State.initial initialMem
    rw [Bytes.load_store_of_apart (by unfold WSIZE; omega)]
    exact congrArg some Bytes.load_store_self
  have hfourth : get s.initial (s.startBrk + 12) = some (pack 0 1) := by
    rw [get_eq (harena 12 (by decide))]
    exact congrArg some Bytes.load_store_self
  refine ⟨⟨⟨h.pos, h.aligned, h.bound⟩, ?_, rfl, ⟨hsecond, hthird⟩, fun b hb ↦ absurd hb List.not_mem_nil,
    hfourth, fun b hb ↦ absurd hb List.not_mem_nil⟩, ⟨⟨?_, List.nodup_nil⟩, fun x ↦ ?_,
    fun b hb ↦ absurd hb List.not_mem_nil⟩, List.isChain_nil⟩
  · change s.startBrk + 16 ≤ s.startBrk + MAX_HEAP
    omega
  · change Links _ _ [0, 0]
    rw [links_cons_cons]
    exact ⟨⟨rfl, rfl⟩, links_singleton⟩
  · exact iff_of_false List.not_mem_nil fun ⟨_, hb, _⟩ ↦ absurd hb List.not_mem_nil

/-- What `mm_init` does with memory from `mem_sbrk`. -/
theorem mmInitWith_some (p : ℕ) (s : State) : mmInitWith (some p, s) =
    (put s p 0).bind fun s ↦ (put s (p + 1 * WSIZE) (pack DSIZE 1)).bind fun s ↦
      (put s (p + 2 * WSIZE) (pack DSIZE 1)).bind fun s ↦
      (put s (p + 3 * WSIZE) (pack 0 1)).bind fun s ↦
      (extendHeap { s with freeListp := 0 } (DSIZE * 2)).bind fun r ↦
        some (decide (r.1 ≠ 0), r.2) := rfl

/-- `mm_init` writes the prologue and the epilogue first. -/
theorem mmInit_eq (hempty : s.brk = s.startBrk) : mmInit s =
    (extendHeap s.initial (DSIZE * 2)).bind fun r ↦ some (decide (r.1 ≠ 0), r.2) := by
  have hmax : MAX_HEAP = 20971520 := rfl
  have hsbrk : memSbrk s ((4 * WSIZE : ℕ) : ℤ) = (some s.startBrk, { s with brk := s.startBrk + 16 }) := by
    unfold memSbrk WSIZE
    rw [if_neg (by omega), hempty, Int.toNat_natCast]
  have hputs : ∀ m : Bytes, ∀ i, i ≤ 12 → ∀ v, put { s with mem := m, brk := s.startBrk + 16 }
      (s.startBrk + i) v =
        some { s with mem := m.store (s.startBrk + i) WSIZE v, brk := s.startBrk + 16 } := by
    intro m i hi v
    refine put_eq (s := { s with mem := m, brk := s.startBrk + 16 }) ?_ v
    unfold InArena WSIZE
    dsimp only
    omega
  have hfirst : put { s with brk := s.startBrk + 16 } s.startBrk 0 =
      some { s with mem := s.mem.store s.startBrk WSIZE 0, brk := s.startBrk + 16 } :=
    hputs s.mem 0 (by decide) 0
  refine (congrArg mmInitWith hsbrk).trans ?_
  rw [mmInitWith_some, hfirst, Option.bind_some, hputs _ (1 * WSIZE) (by decide), Option.bind_some,
    hputs _ (2 * WSIZE) (by decide), Option.bind_some, hputs _ (3 * WSIZE) (by decide), Option.bind_some,
    State.initial, initialMem]

/-- `mm_init` makes a well-formed heap. -/
theorem mmInit_spec (h : s.Placed) (hempty : s.brk = s.startBrk) :
    ∃ s' blocks fl, mmInit s = some (true, s') ∧ s'.startBrk = s.startBrk ∧
      s'.brk = s.startBrk + 80 ∧ WellFormed s' blocks fl := by
  have hmax : MAX_HEAP = 20971520 := rfl
  have hfits : s.initial.brk + 64 ≤ s.initial.startBrk + MAX_HEAP := by
    change s.startBrk + 16 + 64 ≤ s.startBrk + MAX_HEAP
    omega
  obtain ⟨l, p, q, m', hnil, hmerged, hextend, hheap, -⟩ :=
    extendHeapWith_spec (heap_initial h) (by decide) (by decide) hfits
  obtain ⟨rfl, rfl⟩ := List.append_eq_nil_iff.mp hnil.symm
  have hwords : extendSize (DSIZE * 2) = 64 := by decide
  have hbp : q.bp ≠ 0 := by
    have hbounds := (hheap.bounds (b := q) (by simp)).1
    dsimp only at hbounds
    omega
  refine ⟨{ s.initial with mem := m', brk := s.initial.brk + 64, freeListp := q.bp }, _, _, ?_, rfl,
    Nat.add_assoc s.startBrk 16 64, hheap, fun b hb ↦ ?_⟩
  · rw [mmInit_eq hempty, extendHeap, hwords, hextend, Option.bind_some, decide_eq_true hbp]
  · rw [List.mem_singleton.mp hb]
    exact hheap.room q (by simp) hmerged.free

/-! ### The caller -/

/-- A live pointer, and the number of bytes that have been asked for. -/
structure Live where
  p : ℕ
  size : ℕ

/-- The state of the allocator, and the live pointers of its caller. -/
structure Config where
  state : State
  live : List Live

/-- What the caller does; `fill` stores bytes in a live payload. -/
inductive Request
  | malloc (size : ℕ)
  | realloc (p size : ℕ)
  | free (p : ℕ)
  | fill (p : ℕ) (m : Bytes)

/-- The pointer is live. -/
def Config.Has (c : Config) (p : ℕ) : Prop := ∃ e ∈ c.live, e.p = p

/-- What the caller may do: the sizes are positive numbers of type `int`, and the pointers live ones. -/
def Valid (c : Config) : Request → Prop
  | .malloc size => 0 < size ∧ size < 2 ^ 31
  | .realloc p size => c.Has p ∧ 0 < size ∧ size < 2 ^ 31
  | .free p => c.Has p
  | .fill p m => ∃ e ∈ c.live, e.p = p ∧ ∀ z, ¬(e.p ≤ z ∧ z < e.p + e.size) → m z = c.state.mem z

/-- What a request does to the allocator and to the live pointers, with the pointer that it returns. -/
def Step (c : Config) : Request × ℕ → Config → Prop
  | (.malloc size, bp), c' => ∃ s', Returns (fun fuel ↦ mmMalloc fuel c.state size) (bp, s') ∧
      c' = ⟨s', if bp = 0 then c.live else ⟨bp, size⟩ :: c.live⟩
  | (.realloc p size, q), c' => ∃ s', Returns (fun fuel ↦ mmRealloc fuel c.state p size) (q, s') ∧
      c' = ⟨s', if q = 0 then c.live else ⟨q, size⟩ :: c.live.filter (·.p ≠ p)⟩
  | (.free p, _), c' => ∃ s', mmFree c.state p = some s' ∧ c' = ⟨s', c.live.filter (·.p ≠ p)⟩
  | (.fill _ m, _), c' => c' = ⟨{ c.state with mem := m }, c.live⟩

/-- A payload of at most 8 bytes gets no block of 16 bytes, and `mem_sbrk` grants no request that does not
fit into an `int`. -/
def Fine (c : Config) : Request → Prop
  | .malloc size => ∀ blocks fl, WellFormed c.state blocks fl →
      (size ≤ 8 → HasTight blocks 16 ∨ NoMemory c.state blocks 16) ∧
        (MAX_HEAP < size → Refused c.state (demand (adjustedSize size)))
  | .realloc _ size => MAX_HEAP < size → Refused c.state (demand (adjustedSize size))
  | _ => True

/-- The payload that a request with its result changes, resizes or gives back. -/
def Touches : Request × ℕ → ℕ → Prop
  | (.malloc _, _), _ => False
  | (.realloc p _, q), p' => q ≠ 0 ∧ p' = p
  | (.free p, _), p' => p' = p
  | (.fill p _, _), p' => p' = p

/-- The live payloads are aligned, lie in the heap and are disjoint. -/
structure Safe (c : Config) : Prop where
  aligned : ∀ e ∈ c.live, e.p % 8 = 0
  inside : ∀ e ∈ c.live, c.state.startBrk ≤ e.p ∧ e.p + e.size ≤ c.state.brk
  disjoint : c.live.Pairwise fun e f ↦ e.p + e.size ≤ f.p ∨ f.p + f.size ≤ e.p

/-- The other live payloads stay, with their contents. -/
def Keeps (c : Config) (a : Request × ℕ) (c' : Config) : Prop :=
  ∀ e ∈ c.live, ¬Touches a e.p → e ∈ c'.live ∧ ∀ i < e.size, c'.state.mem (e.p + i) = c.state.mem (e.p + i)

/-! ### The invariant -/

/-- The live pointers are those of different allocated blocks with room for the payloads. -/
structure Owns (blocks : List Block) (live : List Live) : Prop where
  block : ∀ e ∈ live, ∃ b ∈ blocks, b.bp = e.p ∧ b.alloc = true ∧ e.size + 8 ≤ b.size
  nodup : (live.map Live.p).Nodup

/-- The heap is well formed and has the blocks of the live pointers. -/
def Inv (c : Config) : Prop := ∃ blocks fl, WellFormed c.state blocks fl ∧ Owns blocks c.live

theorem Inv.safe {c : Config} (h : Inv c) : Safe c := by
  obtain ⟨blocks, fl, hheap, howns⟩ := h
  refine ⟨fun e he ↦ ?_, fun e he ↦ ?_, ?_⟩
  · obtain ⟨b, hb, hbp, -⟩ := howns.block e he
    exact hbp ▸ hheap.aligned hb
  · obtain ⟨b, hb, hbp, -, hsize⟩ := howns.block e he
    have hbounds := hheap.bounds hb
    omega
  · have hne := List.pairwise_map.mp howns.nodup
    refine hne.imp_of_mem fun {e f} he hf hp ↦ ?_
    obtain ⟨b, hb, hbp, -, hsize⟩ := howns.block e he
    obtain ⟨b', hb', hbp', -, hsize'⟩ := howns.block f hf
    rcases hheap.eq_or_apart hb hb' with rfl | hapart
    · exact absurd (hbp.symm.trans hbp') hp
    · omega

/-- A block that is kept keeps the payload in it. -/
theorem Kept.payload {e : Live} (h : Kept s s' b) (hb : b.alloc = true) (hbp : b.bp = e.p)
    (hsize : e.size + 8 ≤ b.size) : ∀ i < e.size, s'.mem (e.p + i) = s.mem (e.p + i) := by
  intro i hi
  refine h _ ?_ fun hfree ↦ absurd hb (by simp [hfree])
  unfold InBlock WSIZE
  omega

/-- Pointers whose blocks are kept stay, and a new one may join them. -/
theorem Owns.keep {live live' : List Live} (h : Owns blocks live) (hsub : live'.Sublist live)
    (hkept : ∀ e ∈ live', ∀ b ∈ blocks, b.bp = e.p → b.alloc = true → b ∈ blocks') :
    Owns blocks' live' := by
  refine ⟨fun e he ↦ ?_, h.nodup.sublist (hsub.map _)⟩
  obtain ⟨b, hb, hbp, halloc, hsize⟩ := h.block e (hsub.subset he)
  exact ⟨b, hkept e he b hb hbp halloc, hbp, halloc, hsize⟩

theorem Owns.cons {live : List Live} (h : Owns blocks live) (hq : q ∈ blocks) (halloc : q.alloc = true)
    (hsize : size + 8 ≤ q.size) (hnew : ∀ e ∈ live, e.p ≠ q.bp) :
    Owns blocks (⟨q.bp, size⟩ :: live) := by
  refine ⟨fun e he ↦ ?_, ?_⟩
  · rcases List.mem_cons.mp he with rfl | he
    · exact ⟨q, hq, rfl, halloc, hsize⟩
    · exact h.block e he
  · rw [List.map_cons, List.nodup_cons, List.mem_map]
    exact ⟨fun ⟨e, he, hp⟩ ↦ hnew e he hp, h.nodup⟩

/-! ### Steps -/

/-- Where no small block results and no request wraps, `mm_malloc` keeps the heap well formed. -/
theorem mmMalloc_fine (h : WellFormed s blocks fl) (hpos : 0 < size) (hint : size < 2 ^ 31)
    (hsmall : size ≤ 8 → HasTight blocks 16 ∨ NoMemory s blocks 16)
    (hlarge : MAX_HEAP < size → Refused s (demand (adjustedSize size))) :
    Returns (fun fuel ↦ mmMalloc fuel s size) (0, s) ∨ ∃ a s' blocks' fl',
      Returns (fun fuel ↦ mmMalloc fuel s size) (a.bp, s') ∧ WellFormed s' blocks' fl' ∧
        Allocates s blocks (adjustedSize size) a s' blocks' ∧ size + 8 ≤ a.size := by
  have hmax : MAX_HEAP = 20971520 := rfl
  have hasize := adjustedSize_spec size hpos (by omega)
  by_cases hfits : size ≤ MAX_HEAP
  · rcases mmMalloc_spec h.toHeap hpos hfits with ⟨hreturns, -⟩ |
      ⟨hmemory, a, s', blocks', fl', hreturns, hheap, hallocates⟩
    · exact Or.inl hreturns
    · have henough := hallocates.enough
      have hroom : 24 ≤ a.size := by
        by_cases hle : size ≤ 8
        · have hsize := adjustedSize_small hpos hle
          rw [hsize] at hmemory hallocates
          rcases hsmall hle with htight | hno
          · exact hallocates.whole htight
          · exact absurd (hmemory.resolve_left hno.1) (not_not.mpr hno.2)
        · omega
      exact Or.inr ⟨a, s', blocks', fl', hreturns, hallocates.wellFormed h hheap hroom, hallocates,
        hasize.2.2.1.trans henough⟩
  · have hrefused := hlarge (Nat.not_le.mp hfits)
    refine Or.inl ((mmMalloc_returns_null_iff h.toHeap hpos).mpr ⟨?_, hrefused⟩)
    rintro ⟨c, hc, -, hle⟩
    have hsize := h.size_le hc
    omega

/-- A request is answered, and every answer keeps the invariant and the other payloads. -/
def Answered (c : Config) (a : Request) : Prop :=
  (∃ result c', Step c (a, result) c') ∧
    ∀ result c', Step c (a, result) c' → Inv c' ∧ Keeps c (a, result) c'

theorem malloc_answered {c : Config} (h : Inv c) (hpos : 0 < size) (hint : size < 2 ^ 31)
    (hfine : Fine c (.malloc size)) : Answered c (.malloc size) := by
  obtain ⟨blocks, fl, hheap, howns⟩ := h
  obtain ⟨hsmall, hlarge⟩ := hfine blocks fl hheap
  rcases mmMalloc_fine hheap hpos hint hsmall hlarge with hreturns |
    ⟨a, s', blocks', fl', hreturns, hheap', hallocates, hsize⟩
  · refine ⟨⟨0, _, c.state, hreturns, rfl⟩, fun bp c' ⟨s', hreturns', heq⟩ ↦ ?_⟩
    obtain ⟨rfl, rfl⟩ := Prod.mk.inj (hreturns'.unique hreturns)
    rw [if_pos rfl] at heq
    subst heq
    exact ⟨⟨blocks, fl, hheap, howns⟩, fun e he _ ↦ ⟨he, fun i _ ↦ rfl⟩⟩
  · have hmem : a ∈ blocks' := by
      obtain ⟨l, mid, r, rest, -, rfl, -⟩ := hallocates.replaced
      simp
    have hbp : a.bp ≠ 0 := by
      have hbounds := (hheap'.bounds hmem).1
      omega
    have hnew : ∀ e ∈ c.live, e.p ≠ a.bp := by
      intro e he heq
      obtain ⟨b, hb, hbp, halloc, -⟩ := howns.block e he
      have hapart := hallocates.apart hheap'.toHeap hb halloc
      have hsized := (hheap.sized b hb).2
      omega
    refine ⟨⟨a.bp, _, s', hreturns, rfl⟩, fun bp c' ⟨s'', hreturns', heq⟩ ↦ ?_⟩
    obtain ⟨rfl, rfl⟩ := Prod.mk.inj (hreturns'.unique hreturns)
    rw [if_neg hbp] at heq
    subst heq
    refine ⟨⟨blocks', fl', hheap', Owns.cons (howns.keep (List.Sublist.refl _)
      fun e _ b hb _ halloc ↦ hallocates.mem hb halloc) hmem hallocates.alloc hsize hnew⟩,
      fun e he _ ↦ ⟨List.mem_cons_of_mem _ he, ?_⟩⟩
    obtain ⟨b, hb, hbp, halloc, hroom⟩ := howns.block e he
    exact (hallocates.kept hb halloc).payload halloc hbp hroom

/-- The pointers other than the one that is gone. -/
theorem mem_filter_ne {live : List Live} {e : Live} :
    e ∈ live.filter (·.p ≠ p) ↔ e ∈ live ∧ e.p ≠ p := by
  rw [List.mem_filter, decide_eq_true_iff]

theorem free_answered {c : Config} (h : Inv c) (hhas : c.Has p) : Answered c (.free p) := by
  obtain ⟨blocks, fl, hheap, howns⟩ := h
  obtain ⟨e₀, he₀, rfl⟩ := hhas
  obtain ⟨b₀, hb₀, hbp₀, halloc₀, -⟩ := howns.block e₀ he₀
  obtain ⟨s', blocks', fl', hfree, hheap', hkept⟩ := mmFree_keeps hheap hb₀ halloc₀
  rw [hbp₀] at hfree
  refine ⟨⟨0, _, s', hfree, rfl⟩, fun _ c' ⟨s'', hfree', heq⟩ ↦ ?_⟩
  obtain rfl := Option.some.inj (hfree'.symm.trans hfree)
  subst heq
  have hother : ∀ b : Block, b.bp ≠ e₀.p → b ≠ b₀ := fun b hne heq ↦ hne (by rw [heq, hbp₀])
  refine ⟨⟨blocks', fl', hheap', howns.keep List.filter_sublist fun e he b hb hbp halloc ↦ ?_⟩,
    fun e he hne ↦ ⟨mem_filter_ne.mpr ⟨he, hne⟩, ?_⟩⟩
  · exact (hkept b hb (hother b (hbp ▸ (mem_filter_ne.mp he).2)) halloc).1
  · obtain ⟨b, hb, hbp, halloc, hroom⟩ := howns.block e he
    exact (hkept b hb (hother b (hbp ▸ hne)) halloc).2.payload halloc hbp hroom

theorem realloc_answered {c : Config} (h : Inv c) (hhas : c.Has p) (hpos : 0 < size)
    (hint : size < 2 ^ 31) (hfine : Fine c (.realloc p size)) : Answered c (.realloc p size) := by
  obtain ⟨blocks, fl, hheap, howns⟩ := h
  obtain ⟨e₀, he₀, rfl⟩ := hhas
  obtain ⟨b₀, hb₀, hbp₀, halloc₀, -⟩ := howns.block e₀ he₀
  have houtcome := mmRealloc_outcome hheap hb₀ halloc₀ hpos (by omega) hfine
  rw [hbp₀] at houtcome
  have hother : ∀ b : Block, b.bp ≠ e₀.p → b ≠ b₀ := fun b hne heq ↦ hne (by rw [heq, hbp₀])
  rcases houtcome with hreturns | ⟨q, s', blocks', fl', hreturns, hheap', hresizes⟩
  · refine ⟨⟨0, _, c.state, hreturns, rfl⟩, fun q c' ⟨s', hreturns', heq⟩ ↦ ?_⟩
    obtain ⟨rfl, rfl⟩ := Prod.mk.inj (hreturns'.unique hreturns)
    rw [if_pos rfl] at heq
    subst heq
    exact ⟨⟨blocks, fl, hheap, howns⟩, fun e he _ ↦ ⟨he, fun i _ ↦ rfl⟩⟩
  · have hbp : q.bp ≠ 0 := by
      have hbounds := (hheap'.bounds hresizes.mem).1
      omega
    refine ⟨⟨q.bp, _, s', hreturns, rfl⟩, fun q' c' ⟨s'', hreturns', heq⟩ ↦ ?_⟩
    obtain ⟨rfl, rfl⟩ := Prod.mk.inj (hreturns'.unique hreturns)
    rw [if_neg hbp] at heq
    subst heq
    refine ⟨⟨blocks', fl', hheap', Owns.cons (howns.keep List.filter_sublist fun e he b hb hbp halloc ↦ ?_)
      hresizes.mem hresizes.alloc hresizes.payload fun e he heq ↦ ?_⟩, fun e he hne ↦ ?_⟩
    · exact (hresizes.others b hb (hother b (hbp ▸ (mem_filter_ne.mp he).2)) halloc).1
    · obtain ⟨he, hne⟩ := mem_filter_ne.mp he
      obtain ⟨b, hb, hbp, halloc, -⟩ := howns.block e he
      exact hresizes.fresh b hb (hother b (hbp ▸ hne)) halloc (hbp.trans heq)
    · have hp : e.p ≠ e₀.p := fun heq ↦ hne ⟨hbp, heq⟩
      obtain ⟨b, hb, hbp, halloc, hroom⟩ := howns.block e he
      exact ⟨List.mem_cons_of_mem _ (mem_filter_ne.mpr ⟨he, hp⟩),
        (hresizes.others b hb (hother b (hbp ▸ hp)) halloc).2.payload halloc hbp hroom⟩

theorem fill_answered {c : Config} (h : Inv c) (hvalid : Valid c (.fill p m)) : Answered c (.fill p m) := by
  obtain ⟨blocks, fl, hheap, howns⟩ := h
  obtain ⟨e₀, he₀, rfl, hframe⟩ := hvalid
  obtain ⟨b₀, hb₀, hbp₀, halloc₀, hroom₀⟩ := howns.block e₀ he₀
  have hframe' : ∀ z, ¬InPayload b₀ z → m z = c.state.mem z := by
    refine fun z hz ↦ hframe z fun hin ↦ hz ?_
    unfold InPayload DSIZE
    omega
  refine ⟨⟨0, _, rfl⟩, fun _ c' heq ↦ ?_⟩
  obtain rfl : c' = _ := heq
  refine ⟨⟨blocks, fl, hheap.fill hb₀ halloc₀ hframe', howns⟩, fun e he hne ↦ ⟨he, ?_⟩⟩
  obtain ⟨b, hb, hbp, halloc, hroom⟩ := howns.block e he
  have hother : b ≠ b₀ := fun heq ↦ hne (hbp.symm.trans ((congrArg Block.bp heq).trans hbp₀))
  exact (hheap.kept_fill hb₀ hb hother hframe').payload halloc hbp hroom

theorem answered {c : Config} (h : Inv c) {a : Request} (hvalid : Valid c a) (hfine : Fine c a) :
    Answered c a := by
  cases a with
  | malloc size => exact malloc_answered h hvalid.1 hvalid.2 hfine
  | realloc p size => exact realloc_answered h hvalid.1 hvalid.2.1 hvalid.2.2 hfine
  | free p => exact free_answered h hvalid
  | fill p m => exact fill_answered h hvalid

/-! ### Runs -/

/-- A run in which every step is valid and fine. -/
def FineRun : Config → List (Request × ℕ) → Config → Prop :=
  Run fun c a c' ↦ Valid c a.1 ∧ Fine c a.1 ∧ Step c a c'

/-- What the allocator promises in a state of a run: the live payloads are in order, and every valid request
is answered and leaves the others. -/
def Promise (c : Config) : Prop :=
  Safe c ∧ ∀ a, Valid c a → Fine c a →
    (∃ result c', Step c (a, result) c') ∧ ∀ result c', Step c (a, result) c' → Keeps c (a, result) c'

/-- In every run from `mm_init` on whose requests are fine the allocator keeps its promise. -/
theorem run_safe (h : s.Placed) (hempty : s.brk = s.startBrk) :
    ∃ s', mmInit s = some (true, s') ∧ ∀ calls c, FineRun ⟨s', []⟩ calls c → Promise c := by
  obtain ⟨s', blocks, fl, hinit, -, -, hheap⟩ := mmInit_spec h hempty
  refine ⟨s', hinit, fun calls c hrun ↦ ?_⟩
  have hinv : Inv c := by
    have hstep : ∀ c a c', Inv c → Valid c a.1 ∧ Fine c a.1 ∧ Step c a c' → Inv c' := fun c a c' hinv hstep ↦
      ((answered hinv hstep.1 hstep.2.1).2 a.2 c' hstep.2.2).1
    refine Run.invariant hstep hrun ⟨blocks, fl, hheap, ?_⟩
    exact ⟨fun e he ↦ absurd he List.not_mem_nil, List.nodup_nil⟩
  refine ⟨hinv.safe, fun a hvalid hfine ↦ ?_⟩
  have hanswered := answered hinv hvalid hfine
  exact ⟨hanswered.1, fun result c' hstep ↦ (hanswered.2 result c' hstep).2⟩

/-- The memory of `mem_init`, before `mm_init`. -/
def unused : State where
  mem _ := 0
  startBrk := 8
  brk := 8
  freeListp := 0

theorem placed_unused : unused.Placed := ⟨by decide, by decide, by decide⟩

theorem run_safe_unused :
    ∃ s', mmInit unused = some (true, s') ∧ ∀ calls c, FineRun ⟨s', []⟩ calls c → Promise c :=
  run_safe placed_unused rfl

/-- A payload that does not fit into the memory is not served where `mem_sbrk` grants the request. -/
theorem mmMalloc_faults (h : WellFormed s blocks fl) (hlarge : MAX_HEAP < size) (hint : size < 2 ^ 31)
    (hgranted : ¬Refused s (demand (adjustedSize size))) (result : ℕ × State) :
    ¬Returns (fun fuel ↦ mmMalloc fuel s size) result := by
  rintro ⟨bound, hreturns⟩
  obtain ⟨bound', hzero⟩ := mmMalloc_huge h.toHeap hlarge hint
  obtain ⟨bound'', hnull⟩ := mmMalloc_null_iff h.toHeap (show 0 < size by omega)
  have hcall := hreturns (bound + bound' + bound'' + 1) (by omega)
  exact (hnull _ (by omega)).2 (fun hno ↦ hgranted hno.2) result hcall
    (hzero _ (by omega) result.1 result.2 hcall)

/-- A request of 2061584296 bytes is not answered. -/
theorem not_run_safe : ¬∀ s : State, s.Placed → s.brk = s.startBrk → ∃ s', mmInit s = some (true, s') ∧
    ∀ calls c, Run (fun c a c' ↦ Valid c a.1 ∧ Step c a c') ⟨s', []⟩ calls c →
      Safe c ∧ ∀ a, Valid c a → (∃ result c', Step c (a, result) c') ∧
        ∀ result c', Step c (a, result) c' → Keeps c (a, result) c' := by
  intro hclaim
  obtain ⟨s', hinit, hruns⟩ := hclaim unused placed_unused rfl
  obtain ⟨s'', blocks, fl, hinit', hstart, hbrk, hheap⟩ := mmInit_spec placed_unused rfl
  obtain rfl := (Prod.mk.inj (Option.some.inj (hinit.symm.trans hinit'))).2
  obtain ⟨bp, c', s'', hreturns, -⟩ :=
    ((hruns [] _ (Run.nil _)).2 (.malloc 2061584296) ⟨by decide, by decide⟩).1
  refine mmMalloc_faults hheap (by decide) (by decide) ?_ _ hreturns
  have hwrap : int32 (demand (adjustedSize 2061584296)) = 8 := by decide
  have hmax : MAX_HEAP = 20971520 := rfl
  change s'.startBrk = 8 at hstart
  change s'.brk = 88 at hbrk
  unfold Refused
  rw [hwrap, hstart, hbrk]
  decide

end Jungle.MallocLab
