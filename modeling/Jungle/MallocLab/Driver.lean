import Jungle.MallocLab.Ranges
import Jungle.MallocLab.Runs

/-!
# The driver of the malloc lab

`eval_mm_valid` of `malloc-lab/mdriver.c`, with `remove_range` and what it calls of `memlib.c`. The driver
replays the requests of a trace. It records the live payloads, fills each with the low byte of its id and
looks for this byte when the block has been resized. The sizes of a trace are those of positive numbers of
type `int`, and `char` is signed. The texts of the complaints and the trace number are left out.

The allocator gives no cause for a complaint but by running out of memory. The driver complains without a
cause, too: a byte of 128 or more, read as a `char`, is never the number it looks for
(`evalMmValid_exact`).
-/

set_option autoImplicit false
set_option relaxedAutoImplicit false

namespace Jungle.MallocLab

open Jungle.Lib

/-! ### Memory -/

/-- `mem_reset_brk ()` -/
def memResetBrk (s : State) : State := { s with brk := s.startBrk }

/-- `mem_heap_lo ()` -/
def memHeapLo (s : State) : ℕ := s.startBrk

/-- `mem_heap_hi ()` -/
def memHeapHi (s : State) : ℕ := s.brk - 1

/-- The bytes after `memset (p, c, n)`. -/
def fillBytes (m : Bytes) (p c n : ℕ) : Bytes := fun x ↦
  if p ≤ x ∧ x < p + n then UInt8.ofNat c else m x

/-- `memset (p, c, n)` -/
def memset (s : State) (p c n : ℕ) : Option State :=
  if InArena s p n then some { s with mem := fillBytes s.mem p c n } else none

/-- The loop that compares the bytes from `p` on, as values of the type `char`, with the low byte of the
id. -/
def checkBytes (s : State) (index : ℕ) : ℕ → ℕ → Option Bool
  | _, 0 => some true
  | p, n + 1 =>
    if InArena s p 1 then
      if (s.mem p).toInt8.toInt ≠ ((index &&& 0xFF : ℕ) : ℤ) then some false
      else checkBytes s index (p + 1) n
    else none

/-! ### The driver -/

/-- `traceop_t`: a request, with the id of its block. -/
inductive TraceOp
  | alloc (index size : ℕ)
  | realloc (index size : ℕ)
  | free (index : ℕ)

/-- `trace_t`: the requests, and the arrays with the pointers and the sizes of the blocks. -/
structure Trace where
  ops : List TraceOp
  blocks : ℕ → ℕ
  blockSizes : ℕ → ℕ

/-- The calls of `malloc_error`; `add_range` makes those that are named `badRange`. -/
inductive Report
  | initFailed
  | mallocFailed
  | reallocFailed
  | badRange
  | notPreserved
deriving DecidableEq

/-- A call of `malloc_error` for the request with this number. -/
structure Complaint where
  opnum : ℕ
  report : Report
deriving DecidableEq

/-- The heap, the range list and the arrays of the trace. -/
structure Driver where
  heap : State
  ranges : List Range
  blocks : ℕ → ℕ
  blockSizes : ℕ → ℕ

/-- `remove_range (ranges, lo)` -/
def removeRange (ranges : List Range) (lo : ℕ) : List Range :=
  match ranges with
  | [] => []
  | p :: ranges => if p.lo = lo then ranges else p :: removeRange ranges lo

/-- The end of `ALLOC` and of `REALLOC`: the block is filled, and its pointer and its size are kept. -/
def remember (d : Driver) (heap : State) (ranges : List Range) (index p size : ℕ) : Option Driver :=
  (memset heap p (index &&& 0xFF) size).map fun heap ↦
    ⟨heap, ranges, Function.update d.blocks index p, Function.update d.blockSizes index size⟩

/-- A round of the loop of `eval_mm_valid`: the report it ends with, or the driver after it. -/
def evalOp (fuel : ℕ) (d : Driver) : TraceOp → Option (Except Report Driver)
  | .alloc index size => do
    let (p, heap) ← mmMalloc fuel d.heap size
    if p = 0 then return .error .mallocFailed
    else
      let (ok, ranges) ← addRange (memHeapLo heap) (memHeapHi heap) true d.ranges p size
      if ok = 0 then return .error .badRange
      else (remember d heap ranges index p size).map .ok
  | .realloc index size => do
    let oldp := d.blocks index
    let (newp, heap) ← mmRealloc fuel d.heap oldp size
    if newp = 0 then return .error .reallocFailed
    else
      let (ok, ranges) ← addRange (memHeapLo heap) (memHeapHi heap) true (removeRange d.ranges oldp) newp size
      if ok = 0 then return .error .badRange
      else
        let oldsize := d.blockSizes index
        let oldsize := if size < oldsize then size else oldsize
        if !(← checkBytes heap index newp oldsize) then return .error .notPreserved
        else (remember d heap ranges index newp size).map .ok
  | .free index => do
    let p := d.blocks index
    let heap ← mmFree d.heap p
    return .ok { d with heap := heap, ranges := removeRange d.ranges p }

/-- The loop of `eval_mm_valid`, from the request `i` on. -/
def evalOps (fuel i : ℕ) (d : Driver) : List TraceOp → Option (Except Complaint Driver)
  | [] => some (.ok d)
  | op :: ops => do
    match ← evalOp fuel d op with
    | .error report => return .error ⟨i, report⟩
    | .ok d => evalOps fuel (i + 1) d ops

/-- `eval_mm_valid (trace, ranges)`, which returns 1 where no complaint results. -/
def evalMmValid (fuel : ℕ) (s : State) (trace : Trace) : Option (Except Complaint Driver) := do
  let (ok, heap) ← mmInit (memResetBrk s)
  if ok then evalOps fuel 0 ⟨heap, [], trace.blocks, trace.blockSizes⟩ trace.ops
  else return .error ⟨0, .initFailed⟩

variable {s heap : State} {d : Driver} {live : List Live} {held : List ℕ} {ranges : List Range}
  {blocks : List Block} {b : Block} {fl : List ℕ} {m : Bytes} {p q n c i index size : ℕ}

/-! ### Bytes -/

theorem memset_eq (h : InArena s p n) (c : ℕ) :
    memset s p c n = some { s with mem := fillBytes s.mem p c n } := if_pos h

theorem fillBytes_inside (hi : i < n) : fillBytes m p c n (p + i) = UInt8.ofNat c :=
  if_pos ⟨Nat.le_add_right p i, Nat.add_lt_add_left hi p⟩

theorem fillBytes_outside {x : ℕ} (h : ¬(p ≤ x ∧ x < p + n)) : fillBytes m p c n x = m x := if_neg h

/-- A byte is the number it is made from, as a `char`, where that is one of the first 128. -/
theorem char_eq_iff {k : ℕ} (hk : k < 256) : (UInt8.ofNat k).toInt8.toInt = (k : ℤ) ↔ k < 128 := by
  have hmod : (UInt8.ofNat k).toBitVec.toNat = k := Nat.mod_eq_of_lt hk
  change (UInt8.ofNat k).toBitVec.toInt = (k : ℤ) ↔ k < 128
  rw [BitVec.toInt_eq_toNat_cond, hmod]
  split_ifs with hsmall
  · exact iff_of_true rfl (by omega)
  · exact iff_of_false (by omega) (by omega)

/-- The driver finds the byte it has filled a block with, unless the byte is of the upper half. -/
theorem checkBytes_eq (harena : InArena s p n)
    (hfilled : ∀ j < n, s.mem (p + j) = UInt8.ofNat (index &&& 0xFF)) :
    checkBytes s index p n = some (decide (n = 0 ∨ index % 256 < 128)) := by
  have hbyte : index &&& 0xFF = index % 256 := Nat.and_two_pow_sub_one_eq_mod index 8
  have hlt : index % 256 < 256 := Nat.mod_lt _ (by decide)
  induction n generalizing p with
  | zero => rfl
  | succ n ih =>
    have hfirst : s.mem p = UInt8.ofNat (index % 256) := hbyte ▸ hfilled 0 (Nat.succ_pos n)
    have hone : InArena s p 1 := ⟨harena.1, by have := harena.2; omega⟩
    rw [checkBytes, if_pos hone, hfirst, hbyte]
    by_cases hlow : index % 256 < 128
    · rw [if_neg (not_not.mpr ((char_eq_iff hlt).mpr hlow)), ih ⟨?_, ?_⟩ fun j hj ↦ ?_]
      · simp [hlow]
      · exact Nat.le_succ_of_le harena.1
      · have hle := harena.2
        omega
      · rw [Nat.add_assoc, Nat.add_comm 1 j]
        exact hfilled (j + 1) (Nat.succ_lt_succ hj)
    · rw [if_pos fun heq ↦ hlow ((char_eq_iff hlt).mp heq)]
      simp [hlow]

/-! ### The range list -/

/-- The recorded ranges are the live payloads. -/
def Records (ranges : List Range) (live : List Live) : Prop :=
  List.Forall₂ (fun r e ↦ r.lo = e.p ∧ r.hi = e.p + e.size - 1) ranges live

theorem Records.exists_live (h : Records ranges live) {r : Range} (hr : r ∈ ranges) :
    ∃ e ∈ live, r.lo = e.p ∧ r.hi = e.p + e.size - 1 := by
  induction h with
  | nil => exact absurd hr List.not_mem_nil
  | cons hends _ ih =>
    rcases List.mem_cons.mp hr with rfl | hr
    · exact ⟨_, List.mem_cons_self, hends⟩
    · obtain ⟨e, he, hends⟩ := ih hr
      exact ⟨e, List.mem_cons_of_mem _ he, hends⟩

/-- `remove_range` strikes the payload out. -/
theorem Records.remove (h : Records ranges live) (hnodup : (live.map Live.p).Nodup) (lo : ℕ) :
    Records (removeRange ranges lo) (live.filter (·.p ≠ lo)) := by
  induction h with
  | nil => exact List.Forall₂.nil
  | @cons r e ranges live hends hrest ih =>
    rw [List.map_cons, List.nodup_cons] at hnodup
    unfold removeRange
    by_cases hlo : e.p = lo
    · rw [if_pos (hends.1.trans hlo), List.filter_cons_of_neg (by simp [hlo]), List.filter_eq_self.mpr]
      · exact hrest
      · intro e' he'
        rw [decide_eq_true_iff]
        rintro rfl
        exact hnodup.1 (hlo ▸ List.mem_map_of_mem he')
    · rw [if_neg fun heq ↦ hlo (hends.1.symm.trans heq), List.filter_cons_of_pos (by simp [hlo])]
      exact List.Forall₂.cons hends (ih hnodup.2)

/-- `add_range` records a new payload that is in order. -/
theorem Records.add (h : Records ranges live) (hpos : 0 < size) (hlive : ∀ e ∈ live, 0 < e.size)
    (hsafe : Safe ⟨s, ⟨p, size⟩ :: live⟩) :
    addRange (memHeapLo s) (memHeapHi s) true ranges p size = some (1, payload p size hpos :: ranges) ∧
      Records (payload p size hpos :: ranges) (⟨p, size⟩ :: live) := by
  have haligned : p % 8 = 0 := hsafe.aligned _ List.mem_cons_self
  have hinside : s.startBrk ≤ p ∧ p + size ≤ s.brk := hsafe.inside _ List.mem_cons_self
  have happart : ApartFrom ranges p (p + size - 1) := by
    intro r hr x hle hlt hmem
    obtain ⟨e, he, hlo, hhi⟩ := h.exists_live hr
    have hsize := hlive e he
    have hdisjoint : p + size ≤ e.p ∨ e.p + e.size ≤ p := (List.pairwise_cons.mp hsafe.disjoint).1 e he
    omega
  have hnone : overlaps p (p + size - 1) ranges = false := by
    rw [← Bool.not_eq_true, overlaps_iff]
    rintro ⟨r, hr, hends⟩
    exact ((apart_iff (by omega)).mp happart r hr).1 hends
  refine ⟨?_, List.Forall₂.cons ⟨rfl, rfl⟩ h⟩
  have hlo : memHeapLo s ≤ p := hinside.1
  rw [addRange_eq hpos hlo (by unfold memHeapHi; omega),
    if_pos ⟨Nat.dvd_of_mod_eq_zero haligned, hnone⟩]

/-! ### The driver and the allocator -/

/-- The driver has recorded the live payloads, and those of the ids in use are filled with their bytes. -/
structure Tracks (d : Driver) (live : List Live) (held : List ℕ) : Prop where
  inv : Inv ⟨d.heap, live⟩
  pos : ∀ e ∈ live, 0 < e.size
  records : Records d.ranges live
  block : ∀ i ∈ held, ⟨d.blocks i, d.blockSizes i⟩ ∈ live
  filled : ∀ i ∈ held, ∀ j < d.blockSizes i, d.heap.mem (d.blocks i + j) = UInt8.ofNat (i &&& 0xFF)
  single : ∀ i ∈ held, ∀ j ∈ held, d.blocks i = d.blocks j → i = j

theorem Tracks.mono {held' : List ℕ} (h : Tracks d live held) (hsub : held' ⊆ held) : Tracks d live held' where
  inv := h.inv
  pos := h.pos
  records := h.records
  block i hi := h.block i (hsub hi)
  filled i hi := h.filled i (hsub hi)
  single i hi j hj := h.single i (hsub hi) j (hsub hj)

theorem Inv.nodup {c : Config} (h : Inv c) : (c.live.map Live.p).Nodup := by
  obtain ⟨_, _, _, howns⟩ := h
  exact howns.nodup

/-- The payloads are those of `mem_init`. -/
theorem Inv.inArena {c : Config} (h : Inv c) {e : Live} (he : e ∈ c.live) : InArena c.state e.p e.size := by
  have hinside := h.safe.inside e he
  obtain ⟨blocks, fl, hheap, -⟩ := h
  have htop := hheap.top
  exact ⟨hinside.1, by omega⟩

/-- The pointers before a new one are others. -/
theorem Inv.ne_head {e e' : Live} (h : Inv ⟨s, e :: live⟩) (he' : e' ∈ live) : e'.p ≠ e.p := by
  have hnodup := h.nodup
  rw [List.map_cons, List.nodup_cons] at hnodup
  exact fun heq ↦ hnodup.1 (heq ▸ List.mem_map_of_mem he')

/-- The driver goes on with the new block of an id. -/
theorem remember_tracks (d : Driver) (index : ℕ) (hinv : Inv ⟨heap, ⟨p, size⟩ :: live⟩)
    (hpos : ∀ e ∈ (⟨p, size⟩ : Live) :: live, 0 < e.size) (hrecords : Records ranges (⟨p, size⟩ :: live))
    (hsingle : ∀ i ∈ held, ∀ j ∈ held, d.blocks i = d.blocks j → i = j)
    (hblock : ∀ i ∈ held, i ≠ index → ⟨d.blocks i, d.blockSizes i⟩ ∈ live)
    (hfilled : ∀ i ∈ held, i ≠ index → ∀ j < d.blockSizes i,
      heap.mem (d.blocks i + j) = UInt8.ofNat (i &&& 0xFF)) :
    ∃ d', remember d heap ranges index p size = some d' ∧ Tracks d' (⟨p, size⟩ :: live) (index :: held) := by
  have harena : InArena heap p size := hinv.inArena List.mem_cons_self
  have hvalid : Valid ⟨heap, ⟨p, size⟩ :: live⟩ (.fill p (fillBytes heap.mem p (index &&& 0xFF) size)) :=
    ⟨_, List.mem_cons_self, rfl, fun z hz ↦ fillBytes_outside hz⟩
  obtain ⟨hinv', hkeeps⟩ := (fill_answered hinv hvalid).2 0 _ rfl
  have hother : ∀ i ∈ held, i ≠ index → d.blocks i ≠ p := fun i hi hne ↦
    hinv.ne_head (hblock i hi hne)
  refine ⟨_, by rw [remember, memset_eq harena, Option.map_some], hinv', hpos, hrecords, fun i hi ↦ ?_,
    fun i hi j hj ↦ ?_, fun i hi j hj heq ↦ ?_⟩
  · by_cases hne : i = index
    · subst hne
      dsimp only
      rw [Function.update_self, Function.update_self]
      exact List.mem_cons_self
    · dsimp only
      rw [Function.update_of_ne hne, Function.update_of_ne hne]
      exact List.mem_cons_of_mem _ (hblock i (List.mem_of_ne_of_mem hne hi) hne)
  · dsimp only at hj ⊢
    by_cases hne : i = index
    · subst hne
      rw [Function.update_self] at hj ⊢
      exact fillBytes_inside hj
    · rw [Function.update_of_ne hne] at hj ⊢
      have hmem := List.mem_of_ne_of_mem hne hi
      have hkept := (hkeeps _ (List.mem_cons_of_mem _ (hblock i hmem hne)) (hother i hmem hne)).2 j hj
      exact hkept.trans (hfilled i hmem hne j hj)
  · dsimp only at heq
    by_cases hi' : i = index <;> by_cases hj' : j = index
    · exact hi'.trans hj'.symm
    · subst hi'
      rw [Function.update_self, Function.update_of_ne hj'] at heq
      exact absurd heq.symm (hother j (List.mem_of_ne_of_mem hj' hj) hj')
    · subst hj'
      rw [Function.update_self, Function.update_of_ne hi'] at heq
      exact absurd heq (hother i (List.mem_of_ne_of_mem hi' hi) hi')
    · rw [Function.update_of_ne hi', Function.update_of_ne hj'] at heq
      exact hsingle i (List.mem_of_ne_of_mem hi' hi) j (List.mem_of_ne_of_mem hj' hj) heq

/-! ### A request -/

/-- The heap has no memory for a block of this size. -/
def Denied (s : State) (size : ℕ) : Prop :=
  ∃ blocks fl, WellFormed s blocks fl ∧ NoMemory s blocks (adjustedSize size)

theorem noMemory_of_null {s' : State} (h : Heap s blocks fl) (hpos : 0 < size)
    (hnull : Returns (fun fuel ↦ mmMalloc fuel s size) (0, s')) : NoMemory s blocks (adjustedSize size) := by
  by_contra hmemory
  obtain ⟨bound, hbound⟩ := mmMalloc_null_iff h hpos
  obtain ⟨bound', hreturns⟩ := hnull
  exact (hbound (bound + bound' + 1) (by omega)).2 hmemory _ (hreturns (bound + bound' + 1) (by omega)) rfl

theorem noMemory_of_realloc_null {s' : State} (h : WellFormed s blocks fl) (hb : b ∈ blocks)
    (halloc : b.alloc = true) (hpos : 0 < size) (hlt : size < 2 ^ 64 - 15)
    (hnull : Returns (fun fuel ↦ mmRealloc fuel s b.bp size) (0, s')) :
    NoMemory s blocks (adjustedSize size) := by
  obtain ⟨l, r, rfl⟩ := List.append_of_mem hb
  rcases mmRealloc_cases h halloc hpos hlt with ⟨q, s'', blocks', fl', hcall, h', hresizes⟩ | ⟨-, hcall⟩
  · have hbounds := (h'.bounds hresizes.mem).1
    have hzero := (Prod.mk.inj (hnull.unique ⟨0, fun fuel _ ↦ hcall fuel⟩)).1
    omega
  · by_contra hmemory
    obtain ⟨bound, hbound⟩ := mmMalloc_null_iff h.toHeap hpos
    obtain ⟨bound', hreturns⟩ := hnull
    have hsome := (hbound (bound + bound' + 1) (by omega)).2 hmemory
    have hmoving := (hcall _).symm.trans (hreturns (bound + bound' + 1) (by omega))
    exact reallocMoving_ne_zero hsome _ hmoving rfl

/-- What `ALLOC` makes of the driver. -/
theorem Tracks.alloc (h : Tracks d live held) (hpos : 0 < size) (hint : size < 2 ^ 31)
    (hfine : Fine ⟨d.heap, live⟩ (.malloc size)) (index : ℕ) :
    (Denied d.heap size ∧ Returns (fun fuel ↦ evalOp fuel d (.alloc index size)) (.error .mallocFailed)) ∨
      ∃ d' live', Returns (fun fuel ↦ evalOp fuel d (.alloc index size)) (.ok d') ∧
        Tracks d' live' (index :: held) := by
  obtain ⟨⟨p, c', hstep⟩, hall⟩ := malloc_answered h.inv hpos hint hfine
  obtain ⟨hinv, hkeeps⟩ := hall p c' hstep
  obtain ⟨heap, hreturns, rfl⟩ := hstep
  have hcalls := hreturns
  obtain ⟨bound, hbound⟩ := hcalls
  by_cases hp : p = 0
  · subst hp
    obtain ⟨blocks, fl, hheap, -⟩ := h.inv
    refine Or.inl ⟨⟨blocks, fl, hheap, noMemory_of_null hheap.toHeap hpos hreturns⟩, bound, fun fuel hfuel ↦ ?_⟩
    simp [evalOp, show mmMalloc fuel d.heap size = _ from hbound fuel hfuel]
  · rw [if_neg hp] at hinv hkeeps
    have hlive : ∀ e ∈ (⟨p, size⟩ : Live) :: live, 0 < e.size := by
      intro e he
      rcases List.mem_cons.mp he with rfl | he
      · exact hpos
      · exact h.pos e he
    obtain ⟨hadd, hrecords⟩ := h.records.add hpos h.pos hinv.safe
    obtain ⟨d', hremember, htracks⟩ := remember_tracks d index hinv hlive hrecords h.single
      (fun i hi _ ↦ h.block i hi)
      fun i hi _ j hj ↦ ((hkeeps _ (h.block i hi) id).2 j hj).trans (h.filled i hi j hj)
    refine Or.inr ⟨d', _, ⟨bound, fun fuel hfuel ↦ ?_⟩, htracks⟩
    simp [evalOp, show mmMalloc fuel d.heap size = _ from hbound fuel hfuel, hp, hadd, hremember]

/-- What `REALLOC` makes of the driver. -/
theorem Tracks.realloc (h : Tracks d live held) (hheld : index ∈ held) (hpos : 0 < size) (hint : size < 2 ^ 31)
    (hfine : Fine ⟨d.heap, live⟩ (.realloc (d.blocks index) size)) :
    (Denied d.heap size ∧
        Returns (fun fuel ↦ evalOp fuel d (.realloc index size)) (.error .reallocFailed)) ∨
      (128 ≤ index % 256 ∧
        Returns (fun fuel ↦ evalOp fuel d (.realloc index size)) (.error .notPreserved)) ∨
      index % 256 < 128 ∧ ∃ d' live', Returns (fun fuel ↦ evalOp fuel d (.realloc index size)) (.ok d') ∧
        Tracks d' live' held := by
  have hmem := h.block index hheld
  have hhas : Config.Has ⟨d.heap, live⟩ (d.blocks index) := ⟨_, hmem, rfl⟩
  obtain ⟨⟨q, c', hstep⟩, hall⟩ := realloc_answered h.inv hhas hpos hint hfine
  obtain ⟨hinv, hkeeps⟩ := hall q c' hstep
  obtain ⟨heap, hreturns, rfl⟩ := hstep
  obtain ⟨blocks, fl, hheap, howns⟩ := h.inv
  obtain ⟨b, hb, hbp, halloc, hroom⟩ := howns.block _ hmem
  dsimp only at hbp hroom hreturns
  have hcalls := hreturns
  obtain ⟨bound, hbound⟩ := hcalls
  rw [← hbp] at hreturns
  by_cases hq : q = 0
  · subst hq
    refine Or.inl ⟨⟨blocks, fl, hheap, noMemory_of_realloc_null hheap hb halloc hpos (by omega) hreturns⟩, bound,
      fun fuel hfuel ↦ ?_⟩
    simp [evalOp, show mmRealloc fuel d.heap (d.blocks index) size = _ from hbound fuel hfuel]
  rw [if_neg hq] at hinv hkeeps
  have hdata : ∀ j < min size (d.blockSizes index), heap.mem (q + j) = UInt8.ofNat (index &&& 0xFF) := by
    intro j hj
    rcases mmRealloc_outcome hheap hb halloc hpos (by omega) hfine with hnull | ⟨q', s', _, _, hcall, -, hresizes⟩
    · exact absurd (Prod.mk.inj (hreturns.unique hnull)).1 hq
    · obtain ⟨rfl, rfl⟩ := Prod.mk.inj (hreturns.unique hcall)
      rw [hresizes.data j (by omega), hbp]
      exact h.filled index hheld j (by omega)
  have hlive : ∀ e ∈ (⟨q, size⟩ : Live) :: live.filter (·.p ≠ d.blocks index), 0 < e.size := by
    intro e he
    rcases List.mem_cons.mp he with rfl | he
    · exact hpos
    · exact h.pos e (mem_filter_ne.mp he).1
  obtain ⟨hadd, hrecords⟩ := (h.records.remove howns.nodup (d.blocks index)).add hpos
    (fun e he ↦ hlive e (List.mem_cons_of_mem _ he)) hinv.safe
  have harena : InArena heap q (min size (d.blockSizes index)) := by
    have hwhole : InArena heap q size := hinv.inArena List.mem_cons_self
    exact ⟨hwhole.1, by have := hwhole.2; omega⟩
  have hcheck := checkBytes_eq harena hdata
  have hold : 0 < d.blockSizes index := h.pos _ hmem
  have hlength : (if size < d.blockSizes index then size else d.blockSizes index) =
      min size (d.blockSizes index) := by
    split_ifs <;> omega
  have hnonzero : ¬min size (d.blockSizes index) = 0 := by omega
  by_cases hlow : index % 256 < 128
  swap
  · refine Or.inr (Or.inl ⟨by omega, bound, fun fuel hfuel ↦ ?_⟩)
    simp [evalOp, hlength, hcheck, hnonzero, hlow, hadd,
      show mmRealloc fuel d.heap (d.blocks index) size = _ from hbound fuel hfuel, hq]
  have hne : ∀ i ∈ held, i ≠ index → d.blocks i ≠ d.blocks index := fun i hi hne heq ↦
    hne (h.single i hi index hheld heq)
  obtain ⟨d', hremember, htracks⟩ := remember_tracks d index hinv hlive hrecords h.single
    (fun i hi hother ↦ mem_filter_ne.mpr ⟨h.block i hi, hne i hi hother⟩)
    fun i hi hother j hj ↦ ((hkeeps _ (h.block i hi) fun htouch ↦ hne i hi hother htouch.2).2 j hj).trans
      (h.filled i hi j hj)
  refine Or.inr (Or.inr ⟨hlow, d', _, ⟨bound, fun fuel hfuel ↦ ?_⟩,
    htracks.mono (List.subset_cons_self index held)⟩)
  simp [evalOp, hlength, hcheck, hlow, hadd, hremember,
    show mmRealloc fuel d.heap (d.blocks index) size = _ from hbound fuel hfuel, hq]

/-- What `FREE` makes of the driver. -/
theorem Tracks.free (h : Tracks d live held) (hheld : index ∈ held) :
    ∃ d' live', Returns (fun fuel ↦ evalOp fuel d (.free index)) (.ok d') ∧
      Tracks d' live' (held.filter (· ≠ index)) := by
  have hmem := h.block index hheld
  have hhas : Config.Has ⟨d.heap, live⟩ (d.blocks index) := ⟨_, hmem, rfl⟩
  obtain ⟨⟨q, c', hstep⟩, hall⟩ := free_answered h.inv hhas
  obtain ⟨hinv, hkeeps⟩ := hall q c' hstep
  obtain ⟨heap, hfree, rfl⟩ := hstep
  have hother : ∀ i ∈ held.filter (· ≠ index), i ∈ held ∧ d.blocks i ≠ d.blocks index := by
    intro i hi
    rw [List.mem_filter, decide_eq_true_iff] at hi
    exact ⟨hi.1, fun heq ↦ hi.2 (h.single i hi.1 index hheld heq)⟩
  refine ⟨{ d with heap := heap, ranges := removeRange d.ranges (d.blocks index) }, _,
    returns_const (by simp [show mmFree d.heap (d.blocks index) = _ from hfree]), hinv,
    fun e he ↦ h.pos e (mem_filter_ne.mp he).1, h.records.remove h.inv.nodup _,
    fun i hi ↦ mem_filter_ne.mpr ⟨h.block i (hother i hi).1, (hother i hi).2⟩, fun i hi j hj ↦ ?_,
    fun i hi j hj heq ↦ h.single i (hother i hi).1 j (hother j hj).1 heq⟩
  exact ((hkeeps _ (h.block i (hother i hi).1) (hother i hi).2).2 j hj).trans (h.filled i (hother i hi).1 j hj)

/-! ### A trace -/

/-- The requests name blocks that are in use, and ask for sizes that are positive numbers of type `int`. -/
def WellUsed (held : List ℕ) : List TraceOp → Prop
  | [] => True
  | .alloc index size :: ops => (0 < size ∧ size < 2 ^ 31) ∧ WellUsed (index :: held) ops
  | .realloc index size :: ops => index ∈ held ∧ (0 < size ∧ size < 2 ^ 31) ∧ WellUsed held ops
  | .free index :: ops => index ∈ held ∧ WellUsed (held.filter (· ≠ index)) ops

/-- The heap gets the request as `Fine` asks for. -/
def FineOp (s : State) : TraceOp → Prop
  | .alloc _ size => Fine ⟨s, []⟩ (.malloc size)
  | .realloc index size => Fine ⟨s, []⟩ (.realloc index size)
  | .free _ => True

/-- The request resizes a block with an id whose low byte is of the upper half. -/
def Marked : TraceOp → Prop
  | .realloc index _ => 128 ≤ index % 256
  | _ => False

/-- What a report says of the heap or of the request. -/
def Blames (s : State) : TraceOp → Report → Prop
  | .alloc _ size, .mallocFailed => Denied s size
  | .realloc _ size, .reallocFailed => Denied s size
  | op, .notPreserved => Marked op
  | _, _ => False

/-- A request of a trace, in a heap in which it is fine. -/
theorem Tracks.step {op : TraceOp} {ops : List TraceOp} (h : Tracks d live held) (hused : WellUsed held (op :: ops))
    (hfine : FineOp d.heap op) :
    (∃ report, Returns (fun fuel ↦ evalOp fuel d op) (.error report) ∧ Blames d.heap op report) ∨
      ¬Marked op ∧ ∃ d' live' held', Returns (fun fuel ↦ evalOp fuel d op) (.ok d') ∧ Tracks d' live' held' ∧
        WellUsed held' ops := by
  cases op with
  | alloc index size =>
    obtain ⟨⟨hpos, hint⟩, hrest⟩ := hused
    rcases h.alloc hpos hint hfine index with ⟨hdenied, hreturns⟩ | ⟨d', live', hreturns, htracks⟩
    · exact Or.inl ⟨_, hreturns, hdenied⟩
    · exact Or.inr ⟨id, d', live', _, hreturns, htracks, hrest⟩
  | realloc index size =>
    obtain ⟨hheld, ⟨hpos, hint⟩, hrest⟩ := hused
    rcases h.realloc hheld hpos hint hfine with ⟨hdenied, hreturns⟩ | ⟨hhigh, hreturns⟩ |
      ⟨hlow, d', live', hreturns, htracks⟩
    · exact Or.inl ⟨_, hreturns, hdenied⟩
    · exact Or.inl ⟨_, hreturns, hhigh⟩
    · exact Or.inr ⟨Nat.not_le.mpr hlow, d', live', held, hreturns, htracks, hrest⟩
  | free index =>
    obtain ⟨hheld, hrest⟩ := hused
    obtain ⟨d', live', hreturns, htracks⟩ := h.free hheld
    exact Or.inr ⟨id, d', live', _, hreturns, htracks, hrest⟩

theorem evalOps_error {op : TraceOp} {report : Report} (h : Returns (fun fuel ↦ evalOp fuel d op) (.error report))
    (i : ℕ) (ops : List TraceOp) : Returns (fun fuel ↦ evalOps fuel i d (op :: ops)) (.error ⟨i, report⟩) := by
  obtain ⟨bound, hbound⟩ := h
  refine ⟨bound, fun fuel hfuel ↦ ?_⟩
  simp [evalOps, show evalOp fuel d op = _ from hbound fuel hfuel]

theorem evalOps_ok {op : TraceOp} {d' : Driver} {ops : List TraceOp} {verdict : Except Complaint Driver}
    (h : Returns (fun fuel ↦ evalOp fuel d op) (.ok d'))
    (hrest : Returns (fun fuel ↦ evalOps fuel (i + 1) d' ops) verdict) :
    Returns (fun fuel ↦ evalOps fuel i d (op :: ops)) verdict := by
  obtain ⟨bound, hbound⟩ := h
  obtain ⟨bound', hbound'⟩ := hrest
  refine ⟨bound + bound', fun fuel hfuel ↦ ?_⟩
  have hop : evalOp fuel d op = some (.ok d') := hbound fuel (by omega)
  have hops : evalOps fuel (i + 1) d' ops = some verdict := hbound' fuel (by omega)
  simp [evalOps, hop, hops]

/-- Each request is fine in the heap in which the driver makes it. -/
def FineFrom (i : ℕ) (d : Driver) (ops : List TraceOp) : Prop :=
  ∀ ops₁ op ops₂ d', ops = ops₁ ++ op :: ops₂ → Returns (fun fuel ↦ evalOps fuel i d ops₁) (.ok d') →
    FineOp d'.heap op

theorem FineFrom.tail {op : TraceOp} {d' : Driver} {ops : List TraceOp} (h : FineFrom i d (op :: ops))
    (hop : Returns (fun fuel ↦ evalOp fuel d op) (.ok d')) : FineFrom (i + 1) d' ops :=
  fun ops₁ op' ops₂ d'' heq hreturns ↦
    h (op :: ops₁) op' ops₂ d'' (by rw [heq, List.cons_append]) (evalOps_ok hop hreturns)

/-- The loop ends without a complaint, or with one that has its cause. -/
theorem evalOps_spec {ops : List TraceOp} (h : Tracks d live held) (hused : WellUsed held ops)
    (hfine : FineFrom i d ops) :
    (∃ d', Returns (fun fuel ↦ evalOps fuel i d ops) (.ok d') ∧ ∀ op ∈ ops, ¬Marked op) ∨
      ∃ ops₁ op ops₂ d' report, ops = ops₁ ++ op :: ops₂ ∧ Returns (fun fuel ↦ evalOps fuel i d ops₁) (.ok d') ∧
        Returns (fun fuel ↦ evalOps fuel i d ops) (.error ⟨i + ops₁.length, report⟩) ∧
        Blames d'.heap op report := by
  induction ops generalizing i d live held with
  | nil => exact Or.inl ⟨d, ⟨0, fun _ _ ↦ rfl⟩, fun op hop ↦ absurd hop List.not_mem_nil⟩
  | cons op ops ih =>
    have hfirst := hfine [] op ops d rfl ⟨0, fun _ _ ↦ rfl⟩
    rcases h.step hused hfirst with ⟨report, hreturns, hblames⟩ | ⟨hlow, d₁, live', held', hreturns, htracks, hrest⟩
    · exact Or.inr ⟨[], op, ops, d, report, rfl, ⟨0, fun _ _ ↦ rfl⟩, evalOps_error hreturns i ops, hblames⟩
    · rcases ih htracks hrest (hfine.tail hreturns) with ⟨d', hok, hall⟩ |
        ⟨ops₁, op', ops₂, d', report, rfl, hbefore, herror, hblames⟩
      · refine Or.inl ⟨d', evalOps_ok hreturns hok, fun op' hop' ↦ ?_⟩
        rcases List.mem_cons.mp hop' with rfl | hop'
        · exact hlow
        · exact hall op' hop'
      · refine Or.inr ⟨op :: ops₁, op', ops₂, d', report, rfl, evalOps_ok hreturns hbefore, ?_, hblames⟩
        have hcount : i + (op :: ops₁).length = i + 1 + ops₁.length := by
          rw [List.length_cons]
          omega
        rw [hcount]
        exact evalOps_ok hreturns herror

theorem evalMmValid_eq {fuel : ℕ} {trace : Trace} (h : mmInit (memResetBrk s) = some (true, heap)) :
    evalMmValid fuel s trace = evalOps fuel 0 ⟨heap, [], trace.blocks, trace.blockSizes⟩ trace.ops := by
  simp [evalMmValid, h]

/-- `eval_mm_valid` ends for every trace whose requests are fine. It accepts the allocator, and then the trace
resizes no block with a marked id; or it names a request for which the heap has no memory, or one that
resizes a block with a marked id. -/
theorem evalMmValid_exact {trace : Trace} (hs : s.Placed) (hused : WellUsed [] trace.ops)
    (hfine : ∀ ops₁ op ops₂ d, trace.ops = ops₁ ++ op :: ops₂ →
      Returns (fun fuel ↦ evalMmValid fuel s { trace with ops := ops₁ }) (.ok d) → FineOp d.heap op) :
    (∃ d, Returns (fun fuel ↦ evalMmValid fuel s trace) (.ok d) ∧ ∀ op ∈ trace.ops, ¬Marked op) ∨
      ∃ ops₁ op ops₂ d report, trace.ops = ops₁ ++ op :: ops₂ ∧
        Returns (fun fuel ↦ evalMmValid fuel s { trace with ops := ops₁ }) (.ok d) ∧
        Returns (fun fuel ↦ evalMmValid fuel s trace) (.error ⟨ops₁.length, report⟩) ∧
        Blames d.heap op report := by
  obtain ⟨heap, blocks, fl, hinit, -, -, hheap⟩ := mmInit_spec (s := memResetBrk s) ⟨hs.pos, hs.aligned, hs.bound⟩ rfl
  have hcall : ∀ ops : List TraceOp, (fun fuel ↦ evalMmValid fuel s { trace with ops := ops }) =
      fun fuel ↦ evalOps fuel 0 ⟨heap, [], trace.blocks, trace.blockSizes⟩ ops :=
    fun ops ↦ funext fun fuel ↦ evalMmValid_eq hinit
  have htracks : Tracks ⟨heap, [], trace.blocks, trace.blockSizes⟩ [] [] :=
    ⟨⟨blocks, fl, hheap, fun e he ↦ absurd he List.not_mem_nil, List.nodup_nil⟩,
      fun e he ↦ absurd he List.not_mem_nil, List.Forall₂.nil, fun i hi ↦ absurd hi List.not_mem_nil,
      fun i hi ↦ absurd hi List.not_mem_nil, fun i hi ↦ absurd hi List.not_mem_nil⟩
  have hfine' : FineFrom 0 ⟨heap, [], trace.blocks, trace.blockSizes⟩ trace.ops := fun ops₁ op ops₂ d heq hreturns ↦
    hfine ops₁ op ops₂ d heq ((hcall ops₁).symm ▸ hreturns)
  have hwhole := hcall trace.ops
  rcases evalOps_spec htracks hused hfine' with ⟨d, hok, hall⟩ | ⟨ops₁, op, ops₂, d, report, heq, hbefore, herror, hblames⟩
  · exact Or.inl ⟨d, hwhole.symm ▸ hok, hall⟩
  · rw [Nat.zero_add] at herror
    exact Or.inr ⟨ops₁, op, ops₂, d, report, heq, (hcall ops₁).symm ▸ hbefore, hwhole.symm ▸ herror, hblames⟩

/-- Requests for more than 8 bytes are fine, if they are for no more than there is at all. -/
theorem fineOp_alloc (hsmall : 8 < size) (hsize : size ≤ MAX_HEAP) (s : State) (index : ℕ) :
    FineOp s (.alloc index size) :=
  fun _ _ _ ↦ ⟨fun hle ↦ absurd hsmall (Nat.not_lt_of_le hle), fun hlarge ↦ absurd hsize (Nat.not_le_of_lt hlarge)⟩

theorem fineOp_realloc (hsize : size ≤ MAX_HEAP) (s : State) (index : ℕ) : FineOp s (.realloc index size) :=
  fun hlarge ↦ absurd hsize (Nat.not_le_of_lt hlarge)

/-- A trace that resizes a block with the id 200. -/
def resizing : Trace := ⟨[.alloc 200 100, .realloc 200 300, .free 200], fun _ ↦ 0, fun _ ↦ 0⟩

theorem evalMmValid_exact_resizing :
    (∃ d, Returns (fun fuel ↦ evalMmValid fuel unused resizing) (.ok d) ∧ ∀ op ∈ resizing.ops, ¬Marked op) ∨
      ∃ ops₁ op ops₂ d report, resizing.ops = ops₁ ++ op :: ops₂ ∧
        Returns (fun fuel ↦ evalMmValid fuel unused { resizing with ops := ops₁ }) (.ok d) ∧
        Returns (fun fuel ↦ evalMmValid fuel unused resizing) (.error ⟨ops₁.length, report⟩) ∧
        Blames d.heap op report := by
  refine evalMmValid_exact placed_unused ?_ fun ops₁ op ops₂ d heq _ ↦ ?_
  · exact ⟨⟨by decide, by decide⟩, List.mem_cons_self, ⟨by decide, by decide⟩, List.mem_cons_self, trivial⟩
  · have hop : op ∈ resizing.ops := heq ▸ List.mem_append_right _ List.mem_cons_self
    simp only [resizing, List.mem_cons, List.not_mem_nil, or_false] at hop
    rcases hop with rfl | rfl | rfl
    · exact fineOp_alloc (by decide) (by decide) d.heap 200
    · exact fineOp_realloc (by decide) d.heap 200
    · trivial

end Jungle.MallocLab
