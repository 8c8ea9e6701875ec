import Jungle.Bitmap.Bits
import Jungle.Lib.Ledger
import Jungle.Pages.Basic

/-!
# One pool

A pool is described by where its pages and its bitmap are (`Area`). `PoolOk mem area free` says that
the bitmap of the pool is in memory and that its clear bits are the free pages, named by their page
numbers.
-/

set_option autoImplicit false
set_option relaxedAutoImplicit false

namespace Jungle.Pages

open Jungle.Lib Jungle.Bitmap

/-- A pool, the number of its pages, and where the buffer of its bitmap begins and ends. -/
structure Area where
  pool : Pool
  count : ℕ
  lo : ℕ
  hi : ℕ

/-- The page number of the first page. -/
def Area.first (area : Area) : ℕ := pgNo area.pool.base

/-- The pages of a pool. -/
def Area.Has (area : Area) (x : ℕ) : Prop := Covers (area.first, area.count) x

/-- The buffer of the bitmap. -/
def Area.Stores (area : Area) (a : ℕ) : Prop := area.lo ≤ a ∧ a < area.hi

/-- The pages are page-aligned addresses other than `NULL`. -/
structure Area.Valid (area : Area) : Prop where
  aligned : pgOfs area.pool.base = 0
  pos : 0 < area.pool.base
  bound : area.pool.base + PGSIZE * area.count ≤ 2 ^ 64

theorem Area.Valid.base_eq {area : Area} (h : area.Valid) : area.pool.base = PGSIZE * area.first := by
  have haligned := h.aligned
  simp only [pgOfs, Area.first, pgNo, PGSIZE] at haligned ⊢
  omega

/-- The bitmap of the pool is in its buffer, and its clear bits are the free pages. -/
structure PoolOk (mem : Memory) (area : Area) (free : ℕ → Prop) : Prop where
  bits : ∃ f, IsBitmap mem area.pool.usedMap area.count f ∧
    ∀ i < area.count, f i = false ↔ free (area.first + i)
  storage : ∀ a, Owns mem area.pool.usedMap area.count a → area.Stores a

variable {mem mem' : Memory} {area : Area} {free free' : ℕ → Prop} {idx cnt : ℕ}

theorem PoolOk.size (h : PoolOk mem area free) : bitmapSize mem area.pool.usedMap = area.count := by
  obtain ⟨f, hbits, -⟩ := h.bits
  exact hbits.size

/-- Memory that agrees on the buffer. -/
theorem PoolOk.frame (h : PoolOk mem area free) (hsame : ∀ a, area.Stores a → mem' a = mem a) :
    PoolOk mem' area free := by
  obtain ⟨f, hbits, hfree⟩ := h.bits
  obtain ⟨hbits', howns⟩ := hbits.frame fun a ha ↦ hsame a (h.storage a ha)
  exact ⟨⟨f, hbits', hfree⟩, fun a ha ↦ h.storage a ((howns a).mp ha)⟩

/-- The same free pages. -/
theorem PoolOk.congr (h : PoolOk mem area free)
    (hfree : ∀ x, area.Has x → (free' x ↔ free x)) : PoolOk mem area free' := by
  obtain ⟨f, hbits, hclear⟩ := h.bits
  refine ⟨⟨f, hbits, fun i hi ↦ (hclear i hi).trans (hfree _ ?_).symm⟩, h.storage⟩
  exact ⟨Nat.le_add_right .., Nat.add_lt_add_left hi _⟩

/-- The free pages after the bits of a range have been set. -/
theorem PoolOk.sets (h : PoolOk mem area free) {f : ℕ → Bool} {value : Bool}
    (hclear : ∀ i < area.count, f i = false ↔ free (area.first + i))
    (hsets : Sets mem mem' area.pool.usedMap area.count (setRange f idx cnt value)) :
    PoolOk mem' area (fun x ↦ if value then free x ∧ ¬Covers (area.first + idx, cnt) x
      else free x ∨ Covers (area.first + idx, cnt) x) ∧
    ∀ a, ¬area.Stores a → mem' a = mem a := by
  refine ⟨⟨⟨_, hsets.isBitmap, fun i hi ↦ ?_⟩, fun a ha ↦ h.storage a ((hsets.owns a).mp ha)⟩,
    fun a ha ↦ hsets.same a fun howns ↦ ha (h.storage a howns)⟩
  have hcovers : Covers (area.first + idx, cnt) (area.first + i) ↔ idx ≤ i ∧ i < idx + cnt := by
    simp only [Covers]
    omega
  simp only [setRange, hcovers, ← hclear i hi]
  by_cases hrange : idx ≤ i ∧ i < idx + cnt
  · cases value <;> simp [hrange]
  · cases value <;> simp [hrange]

/-- Clearing the bits of a range makes its pages free. -/
theorem PoolOk.clear (h : PoolOk mem area free) (hcnt : idx + cnt ≤ area.count) :
    ∃ mem', bitmapSetMultiple mem area.pool.usedMap idx cnt false = some mem' ∧
      PoolOk mem' area (fun x ↦ free x ∨ Covers (area.first + idx, cnt) x) ∧
      ∀ a, ¬area.Stores a → mem' a = mem a := by
  obtain ⟨f, hbits, hclear⟩ := h.bits
  obtain ⟨mem', hset, hsets⟩ := bitmapSetMultiple_spec hbits hcnt false
  exact ⟨mem', hset, h.sets hclear hsets⟩

/-- A run of free pages. -/
def IsFreeRun (area : Area) (free : ℕ → Prop) (cnt idx : ℕ) : Prop :=
  idx + cnt ≤ area.count ∧ ∀ x, Covers (area.first + idx, cnt) x → free x

/-- The runs of clear bits are the runs of free pages. -/
theorem isRun_iff {f : ℕ → Bool} (hclear : ∀ i < area.count, f i = false ↔ free (area.first + i))
    (i : ℕ) : IsRun f area.count cnt false i ↔ IsFreeRun area free cnt i := by
  refine and_congr_right fun hi ↦ ⟨fun hall x hx ↦ ?_, fun hall j hle hlt ↦ ?_⟩
  · obtain ⟨hle, hlt⟩ := hx
    have hj : area.first + (x - area.first) = x := by omega
    rw [← hj, ← hclear _ (by omega)]
    exact hall _ (by omega) (by omega)
  · rw [hclear j (by omega)]
    exact hall _ ⟨by omega, by omega⟩

/-- The page whose index is `BITMAP_ERROR` is not free. -/
def Area.Distinct (area : Area) (free : ℕ → Prop) : Prop :=
  BITMAP_ERROR < area.count → ¬free (area.first + BITMAP_ERROR)

/-- The first run of free pages is not at the index `BITMAP_ERROR`. -/
theorem Area.Distinct.first_ne (h : area.Distinct free) {result : ℕ}
    (hfound : IsFreeRun area free cnt result) (hfirst : ∀ i < result, ¬IsFreeRun area free cnt i) :
    result ≠ BITMAP_ERROR := by
  rintro rfl
  rcases Nat.eq_zero_or_pos cnt with rfl | hcnt
  · refine hfirst 0 (by decide) ⟨Nat.zero_le _, fun x hx ↦ ?_⟩
    exact absurd (Nat.lt_of_le_of_lt hx.1 hx.2) (Nat.lt_irrefl _)
  · have hbound := hfound.1
    exact h (by omega) (hfound.2 _ ⟨Nat.le_refl _, Nat.lt_add_of_pos_right hcnt⟩)

/-- `bitmap_scan_and_flip` finds a run of free pages if there is one, and makes it used. -/
theorem PoolOk.scanAndFlip (h : PoolOk mem area free) (hdistinct : area.Distinct free) (cnt : ℕ) :
    ∃ result mem', bitmapScanAndFlip mem area.pool.usedMap 0 cnt false = some (result, mem') ∧
      (result ≠ BITMAP_ERROR → IsFreeRun area free cnt result ∧
        PoolOk mem' area (fun x ↦ free x ∧ ¬Covers (area.first + result, cnt) x) ∧
        ∀ a, ¬area.Stores a → mem' a = mem a) ∧
      (result = BITMAP_ERROR → mem' = mem ∧ ∀ idx, ¬IsFreeRun area free cnt idx) := by
  obtain ⟨f, hbits, hclear⟩ := h.bits
  obtain ⟨result, mem', hscan, hscans, hflip, hsame⟩ :=
    bitmapScanAndFlip_spec hbits (Nat.zero_le _) cnt false
  refine ⟨result, mem', hscan, fun hresult ↦ ?_, fun hresult ↦ ⟨hsame hresult, fun i hi ↦ ?_⟩⟩
  · have hfound : IsFreeRun area free cnt result := by
      rcases hscans with ⟨-, hfound, -⟩ | ⟨heq, -⟩
      · exact (isRun_iff hclear result).mp hfound
      · exact absurd heq hresult
    exact ⟨hfound, h.sets hclear (hflip hresult)⟩
  · rcases hscans with ⟨-, hfound, hfirst⟩ | ⟨-, hnone⟩
    · refine hdistinct.first_ne ((isRun_iff hclear result).mp hfound) (fun j hj hrun ↦ ?_) hresult
      exact hfirst j (Nat.zero_le j) hj ((isRun_iff hclear j).mpr hrun)
    · exact hnone i (Nat.zero_le i) ((isRun_iff hclear i).mpr hi)

/-- A scan for one page returns `BITMAP_ERROR` if no other page is free than the one with this
index. -/
theorem PoolOk.scanAndFlip_edge (h : PoolOk mem area free)
    (honly : ∀ i < area.count, free (area.first + i) → i = BITMAP_ERROR) :
    ∃ mem', bitmapScanAndFlip mem area.pool.usedMap 0 1 false = some (BITMAP_ERROR, mem') := by
  obtain ⟨f, hbits, hclear⟩ := h.bits
  obtain ⟨result, mem', hscan, hscans, -, -⟩ :=
    bitmapScanAndFlip_spec hbits (Nat.zero_le _) 1 false
  have hresult : result = BITMAP_ERROR := by
    rcases hscans with ⟨-, ⟨hbound, hrun⟩, -⟩ | ⟨heq, -⟩
    · have hlt : result < area.count := by omega
      exact honly result hlt ((hclear result hlt).mp (hrun result (Nat.le_refl _) (by omega)))
    · exact heq
  exact ⟨mem', hresult ▸ hscan⟩

/-- `bitmap_all` says whether a range has no free page. -/
theorem PoolOk.all (h : PoolOk mem area free) (hcnt : idx + cnt ≤ area.count)
    (hused : ∀ x, Covers (area.first + idx, cnt) x → ¬free x) :
    bitmapAll mem area.pool.usedMap idx cnt = some true := by
  obtain ⟨f, hbits, hclear⟩ := h.bits
  obtain ⟨result, hcontains, hresult⟩ := bitmapContains_spec hbits hcnt false
  have hfalse : result = false := by
    rw [← Bool.not_eq_true, hresult]
    rintro ⟨i, hle, hlt, hi⟩
    exact hused (area.first + i) ⟨by omega, by omega⟩ ((hclear i (by omega)).mp hi)
  simp only [bitmapAll, hcontains, hfalse, Option.bind_eq_bind, Option.bind_some, Option.pure_def,
    Bool.not_false]

/-! ### Making a pool -/

theorem bitmapBufSize_le (pgcnt : ℕ) : bitmapBufSize pgcnt ≤ bmPages pgcnt := by
  unfold bmPages PGSIZE
  omega

/-- A pool made by `init_pool`. -/
def newArea (bmBase start finish : ℕ) : Area where
  pool := ⟨bmBase, start⟩
  count := (finish - start) / PGSIZE
  lo := bmBase
  hi := bmBase + bmPages ((finish - start) / PGSIZE)

/-- `init_pool` makes a pool without free pages. -/
theorem initPool_spec (mem : Memory) {bmBase start finish : ℕ} (hfinish : finish ≤ 2 ^ 64)
    (hbound : (newArea bmBase start finish).hi ≤ 2 ^ 64) :
    ∃ mem', initPool mem bmBase start finish =
      some ((newArea bmBase start finish).pool, (newArea bmBase start finish).hi, mem') ∧
      PoolOk mem' (newArea bmBase start finish) (fun _ ↦ False) ∧
      ∀ a, ¬(newArea bmBase start finish).Stores a → mem' a = mem a := by
  have hsize := bitmapBufSize_le ((finish - start) / PGSIZE)
  have hcount : (finish - start) / PGSIZE < 2 ^ 64 := by
    simp only [PGSIZE]
    omega
  have hbuffer : bmBase + 16 < 2 ^ 64 := by
    simp only [newArea, bmPages, bitmapBufSize, PGSIZE] at hbound
    omega
  obtain ⟨mem₁, hcreate, hbits, howns, hsame⟩ := bitmapCreateInBuf_spec mem hcount hbuffer hsize
  obtain ⟨mem', hset, hsets⟩ := bitmapSetAll_spec hbits true
  have hstores : ∀ a, Owns mem₁ bmBase ((finish - start) / PGSIZE) a →
      (newArea bmBase start finish).Stores a := by
    intro a ha
    have hrange := howns a ha
    exact ⟨hrange.1, by simp only [newArea]; omega⟩
  refine ⟨mem', ?_, ⟨⟨_, hsets.isBitmap, fun i _ ↦ by simp⟩,
    fun a ha ↦ hstores a ((hsets.owns a).mp ha)⟩, fun a ha ↦ ?_⟩
  · simp only [initPool, hcreate, hset, Option.bind_eq_bind, Option.bind_some, Option.pure_def]
    rfl
  · rw [hsets.same a fun hown ↦ ha (hstores a hown), hsame a]
    rintro ⟨hlo, hhi⟩
    exact ha ⟨hlo, by simp only [newArea]; omega⟩

end Jungle.Pages
