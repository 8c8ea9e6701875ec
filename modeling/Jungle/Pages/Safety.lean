import Jungle.Pages.Runs

/-!
# The page allocator from its initialisation on

The pools that `populate_pools` makes of disjoint ranges, with their bitmaps below the usable pages,
are in order, and stay so in every run (`run_pages_sound`).
-/

set_option autoImplicit false
set_option relaxedAutoImplicit false

namespace Jungle.Pages

open Jungle.Lib Jungle.Bitmap

namespace Setup

variable (setup : Setup)

/-- The kernel pool. -/
def kernelArea : Area := newArea setup.bmBase setup.kernelStart setup.kernelEnd

/-- The user pool, whose bitmap is behind that of the kernel pool. -/
def userArea : Area := newArea setup.kernelArea.hi setup.userStart setup.userEnd

/-- The pool that `PAL_USER` selects. -/
def area (user : Bool) : Area := if user then setup.userArea else setup.kernelArea

/-- The usable pages. -/
def Usable (x : ℕ) : Prop :=
  ∃ r ∈ setup.usable, Covers ((setup.area r.1).first + r.2.1, r.2.2) x

/-- The pools are page-aligned ranges of addresses that do not meet, the usable pages are in them, and
they are behind the bitmaps. -/
structure Valid : Prop where
  aligned : setup.kernelStart % PGSIZE = 0 ∧ setup.userStart % PGSIZE = 0
  pos : 0 < setup.kernelStart ∧ 0 < setup.userStart
  kernel : setup.kernelStart ≤ setup.kernelEnd ∧ setup.kernelEnd ≤ 2 ^ 64
  user : setup.userStart ≤ setup.userEnd ∧ setup.userEnd ≤ 2 ^ 64
  apart : setup.kernelEnd ≤ setup.userStart ∨ setup.userEnd ≤ setup.kernelStart
  buffers : setup.userArea.hi ≤ 2 ^ 64
  usable : ∀ r ∈ setup.usable, r.2.1 + r.2.2 ≤ (setup.area r.1).count ∧
    (0 < r.2.2 → setup.userArea.hi ≤ (setup.area r.1).pool.base + PGSIZE * r.2.1)

end Setup

variable {setup : Setup} {pools : Pools} {area : Bool → Area} {usable : ℕ → Prop} {s : State}

theorem newArea_valid {bmBase start finish : ℕ} (haligned : start % PGSIZE = 0) (hpos : 0 < start)
    (hrange : start ≤ finish ∧ finish ≤ 2 ^ 64) : (newArea bmBase start finish).Valid := by
  refine ⟨haligned, hpos, ?_⟩
  simp only [newArea, PGSIZE]
  omega

theorem Setup.Valid.area_valid (h : setup.Valid) (user : Bool) : (setup.area user).Valid := by
  cases user
  · exact newArea_valid h.aligned.1 h.pos.1 h.kernel
  · exact newArea_valid h.aligned.2 h.pos.2 h.user

/-- The pools of a setup do not meet. -/
theorem Setup.Valid.geometry (h : setup.Valid) :
    Geometry ⟨setup.kernelArea.pool, setup.userArea.pool⟩ setup.area setup.Usable where
  pool user := by cases user <;> rfl
  valid := h.area_valid
  apart x hx hx' := by
    obtain ⟨hle, hlt⟩ := hx
    obtain ⟨hle', hlt'⟩ := hx'
    have haligned := h.aligned
    have hkernel := h.kernel
    have huser := h.user
    have hapart := h.apart
    simp only [Setup.area, Bool.false_eq_true, if_false, if_true, Setup.kernelArea, Setup.userArea,
      newArea, Area.first, pgNo, PGSIZE] at hle hlt hle' hlt' haligned
    omega
  buffers a ha ha' := by
    exact Nat.not_lt_of_le ha'.1 ha.2
  usable := by
    rintro x ⟨r, hr, hle, hlt⟩ user a ha heq
    obtain ⟨-, hbehind⟩ := h.usable r hr
    have hbehind := hbehind (by omega)
    have hhi : (setup.area user).hi ≤ setup.userArea.hi := by
      cases user
      · exact Nat.le_add_right ..
      · exact Nat.le_refl _
    have hbase := (h.area_valid r.1).base_eq
    have hlt := ha.2
    simp only [pgNo, PGSIZE] at heq hbehind hbase
    omega

/-- Making the usable pages free. -/
theorem freeUsable_spec (hgeo : Geometry pools area usable) (regions : List (Bool × ℕ × ℕ))
    {mem : Memory} {free : ℕ → Prop} (hpools : ∀ user, PoolOk mem (area user) free)
    (hregions : ∀ r ∈ regions, r.2.1 + r.2.2 ≤ (area r.1).count) :
    ∃ mem', freeUsable pools regions mem = some mem' ∧ ∀ user, PoolOk mem' (area user) fun x ↦
      free x ∨ ∃ r ∈ regions, Covers ((area r.1).first + r.2.1, r.2.2) x := by
  induction regions generalizing mem free with
  | nil => exact ⟨mem, rfl, fun user ↦ (hpools user).congr fun x _ ↦ by simp⟩
  | cons region regions ih =>
    obtain ⟨user, pageIdx, pageCnt⟩ := region
    have hregion := hregions _ List.mem_cons_self
    obtain ⟨mem₁, hclear, hpool, hsame⟩ := (hpools user).clear hregion
    have hpools₁ : ∀ user', PoolOk mem₁ (area user')
        (fun x ↦ free x ∨ Covers ((area user).first + pageIdx, pageCnt) x) := by
      intro user'
      by_cases huser : user' = user
      · rwa [huser]
      · refine ((hpools user').frame fun a ha ↦ hsame a fun ha' ↦ ?_).congr fun x hx ↦ ?_
        · exact huser (hgeo.stores_unique ha ha')
        · exact or_iff_left fun hx' ↦ huser (hgeo.has_unique hx (has_of_covers hregion hx'))
    obtain ⟨mem', hrest, hpools'⟩ := ih hpools₁ fun r hr ↦ hregions r (List.mem_cons_of_mem _ hr)
    refine ⟨mem', ?_, fun user' ↦ (hpools' user').congr fun x _ ↦ ?_⟩
    · rw [hgeo.pool] at hclear
      simp only [freeUsable, hclear, hrest, Option.bind_eq_bind, Option.bind_some]
    · simp only [List.mem_cons, exists_eq_or_imp, or_assoc]

/-- The initialised pools are in order. -/
theorem initialise_spec (h : setup.Valid) (mem : Memory) :
    ∃ mem', initialise mem setup = some (⟨setup.kernelArea.pool, setup.userArea.pool⟩, mem') ∧
      Inv setup.area setup.Usable ⟨mem', []⟩ := by
  have hhi : setup.kernelArea.hi ≤ setup.userArea.hi := Nat.le_add_right ..
  obtain ⟨mem₁, hkernel, hpool₁, hsame₁⟩ :=
    initPool_spec mem h.kernel.2 (Nat.le_trans hhi h.buffers)
  obtain ⟨mem₂, huser, hpool₂, hsame₂⟩ := initPool_spec mem₁ h.user.2 h.buffers
  have hpools : ∀ user, PoolOk mem₂ (setup.area user) (fun _ ↦ False) := by
    intro user
    cases user
    · exact hpool₁.frame fun a ha ↦ hsame₂ a (h.geometry.buffers a ha)
    · exact hpool₂
  obtain ⟨mem', hfree, hpools'⟩ :=
    freeUsable_spec h.geometry setup.usable hpools fun r hr ↦ (h.usable r hr).1
  refine ⟨mem', ?_, fun user ↦ (hpools' user).congr fun x _ ↦ ?_, ledger_nil _,
    fun r hr ↦ absurd hr List.not_mem_nil⟩
  · change initPool mem setup.bmBase setup.kernelStart setup.kernelEnd =
      some (setup.kernelArea.pool, setup.kernelArea.hi, mem₁) at hkernel
    change initPool mem₁ setup.kernelArea.hi setup.userStart setup.userEnd =
      some (setup.userArea.pool, setup.userArea.hi, mem₂) at huser
    simp only [initialise, hkernel, huser, hfree, Option.bind_eq_bind, Option.bind_some,
      Option.pure_def]
  · rw [false_or, Free, List.map_nil, and_iff_left (covered_nil x), Setup.Usable]

/-- The pages handed out are ranges of pages in the pools that are usable and apart, the bitmaps show
the other usable pages as free, pages handed out can be taken back, and pages are handed out if there
is a run of free ones. -/
structure Sound (setup : Setup) (pools : Pools) (s : State) : Prop where
  ranges : ∀ r ∈ s.live, ∃ user idx, r.1 = (pools.pool user).base + PGSIZE * idx ∧
    idx + r.2 ≤ (setup.area user).count
  ledger : Ledger setup.Usable (s.live.map pagesOf)
  bits : ∀ user, ∀ i < (setup.area user).count,
    bitmapTest s.mem (pools.pool user).usedMap i = some false ↔
      Free setup.Usable (s.live.map pagesOf) (pgNo (pools.pool user).base + i)
  free : ∀ r ∈ s.live, ∃ mem, pallocFreeMultiple pools s.mem r.1 r.2 = some mem
  found : ∀ (flags : PallocFlags) (cnt : ℕ), (∃ idx, IsFreeRun (setup.area flags.user)
    (Free setup.Usable (s.live.map pagesOf)) cnt idx) →
      ∃ pages mem, pages ≠ 0 ∧ pallocGetMultiple pools s.mem flags cnt = some (pages, mem)
  none : ∀ (flags : PallocFlags) (cnt : ℕ), (¬∃ idx, IsFreeRun (setup.area flags.user)
    (Free setup.Usable (s.live.map pagesOf)) cnt idx) →
      pallocGetMultiple pools s.mem flags cnt = if flags.assert then none else some (0, s.mem)

/-- Pools in order are sound. -/
theorem Inv.sound (hgeo : Geometry pools setup.area setup.Usable)
    (hdistinct : Distinct setup.area setup.Usable) (hinv : Inv setup.area setup.Usable s) : Sound setup pools s where
  ranges r hr := by
    obtain ⟨user, idx, hpages, hidx⟩ := hinv.place r hr
    exact ⟨user, idx, hgeo.pool user ▸ hpages, hidx⟩
  ledger := hinv.ledger
  bits user i hi := by
    obtain ⟨f, hbits, hclear⟩ := (hinv.pools user).bits
    rw [← hgeo.pool, bitmapTest_eq hbits hi, Option.some.injEq]
    exact hclear i hi
  free r hr := by
    obtain ⟨mem, hfree, -⟩ := free_spec hgeo hinv hr
    exact ⟨mem, hfree⟩
  found flags cnt hrun := by
    obtain ⟨pages, mem, hpos, hget, -⟩ := get_found hgeo hdistinct hinv flags hrun
    exact ⟨pages, mem, hpos, hget⟩
  none flags cnt hrun := get_none hgeo hdistinct hinv flags hrun

/-- In every run on initialised pools the pages handed out are sound, if no usable page has the index
`BITMAP_ERROR` in its pool. -/
theorem run_pages_sound {mem mem₀ : Memory} {calls : List Call} (hvalid : setup.Valid)
    (hdistinct : Distinct setup.area setup.Usable) (hinit : initialise mem setup = some (pools, mem₀))
    (hrun : Run (Step pools) ⟨mem₀, []⟩ calls s) : Sound setup pools s := by
  obtain ⟨mem', hinit', hinv⟩ := initialise_spec hvalid mem
  obtain ⟨rfl, rfl⟩ := Prod.mk.inj (Option.some.inj (hinit.symm.trans hinit'))
  exact (hrun.invariant (fun _ _ _ h hstep ↦ inv_step hvalid.geometry hdistinct h hstep) hinv).sound
    hvalid.geometry hdistinct

/-- Two usable pages of kernel memory, and two user pages that are not usable. -/
def twoPages : Setup where
  kernelStart := 0xa000
  kernelEnd := 0xc000
  userStart := 0xc000
  userEnd := 0xe000
  bmBase := 0x1000
  usable := [(false, 0, 2)]

/-- The run in which a page is handed out. -/
theorem run_pages_sound_get : ∃ pools s, s.live.length = 1 ∧ Sound twoPages pools s := by
  have hvalid : twoPages.Valid := by
    refine ⟨by decide, by decide, by decide, by decide, by decide, by decide, fun r hr ↦ ?_⟩
    obtain rfl := List.mem_singleton.mp hr
    decide
  obtain ⟨mem, hinit, -⟩ := initialise_spec hvalid fun _ ↦ 0
  have hdistinct : Distinct twoPages.area twoPages.Usable := by
    intro user hcount
    cases user <;> exact absurd hcount (by decide)
  have hstart := run_pages_sound hvalid hdistinct hinit (Run.nil _)
  have hrun : IsFreeRun (twoPages.area false) (Free twoPages.Usable []) 1 0 := by
    refine ⟨by decide, fun x hx ↦ ⟨⟨(false, 0, 2), List.mem_singleton_self _, hx.1, ?_⟩, covered_nil x⟩⟩
    exact Nat.lt_of_lt_of_le hx.2 (by decide)
  obtain ⟨pages, mem', hpos, hget⟩ := hstart.found ⟨false, false, false⟩ 1 ⟨0, hrun⟩
  have hsound := run_pages_sound hvalid hdistinct hinit (Run.single (Step.get hget))
  rw [if_neg hpos] at hsound
  exact ⟨_, _, rfl, hsound⟩

/-- A kernel pool of `2 ^ 32` pages, of which only the last one is usable. -/
def hugePool : Setup where
  kernelStart := 0x8004000000
  kernelEnd := 0x8004000000 + PGSIZE * 2 ^ 32
  userStart := 0x8004000000 + PGSIZE * 2 ^ 32
  userEnd := 0x8004000000 + PGSIZE * 2 ^ 32
  bmBase := 0x8004400000
  usable := [(false, 2 ^ 32 - 1, 1)]

/-- On initialised pools with a usable page whose index is `BITMAP_ERROR` that page is not handed out. -/
theorem not_pages_sound : ¬∀ (setup : Setup) (pools : Pools) (mem mem₀ : Memory) (calls : List Call)
    (s : State), setup.Valid → initialise mem setup = some (pools, mem₀) →
      Run (Step pools) ⟨mem₀, []⟩ calls s → Sound setup pools s := by
  intro h
  have hvalid : hugePool.Valid := by
    refine ⟨by decide, by decide, by decide, by decide, by decide, by decide, fun r hr ↦ ?_⟩
    obtain rfl := List.mem_singleton.mp hr
    decide
  obtain ⟨mem, hinit, hinv⟩ := initialise_spec hvalid fun _ ↦ 0
  have hsound := h hugePool _ _ _ [] _ hvalid hinit (Run.nil _)
  have hrun : IsFreeRun (hugePool.area false) (Free hugePool.Usable []) 1 BITMAP_ERROR :=
    ⟨by decide, fun x hx ↦ ⟨⟨(false, 2 ^ 32 - 1, 1), List.mem_singleton_self _, hx⟩, covered_nil x⟩⟩
  obtain ⟨pages, mem', hpages, hget⟩ := hsound.found ⟨false, false, false⟩ 1 ⟨BITMAP_ERROR, hrun⟩
  obtain ⟨mem'', hscan⟩ := (hinv.pools false).scanAndFlip_edge fun i _ hfree ↦ by
    obtain ⟨r, hr, hle, hlt⟩ := hfree.1
    obtain rfl := List.mem_singleton.mp hr
    simp only [BITMAP_ERROR, SIZE_MAX] at hle hlt ⊢
    omega
  have hnull : pallocGetMultiple ⟨hugePool.kernelArea.pool, hugePool.userArea.pool⟩ mem
      ⟨false, false, false⟩ 1 = some (0, mem'') := by
    change bitmapScanAndFlip mem hugePool.kernelArea.pool.usedMap 0 1 false = _ at hscan
    simp only [pallocGetMultiple, Pools.pool, Bool.false_eq_true, if_false, hscan,
      Option.bind_eq_bind, Option.bind_some, ne_eq, not_true_eq_false, Option.pure_def]
  exact hpages (Prod.mk.inj (Option.some.inj (hget.symm.trans hnull))).1

end Jungle.Pages
