import Jungle.Pages.Boundaries

/-!
# The pages that are made free

The second loop of `populate_pools`, for pools that are ranges of whole pages. Of every region the pages
behind the bitmaps become free in the pool that they are in (`markRegion_spec`), unless the region ends
where the bitmaps do, at a page of no pool (`markRegion_none`).
-/

set_option autoImplicit false
set_option relaxedAutoImplicit false

namespace Jungle.Pages

open Jungle.Lib Jungle.Bitmap

/-- The pools begin and end with whole pages, and so does the place of their bitmaps. -/
structure Setup.Shape (setup : Setup) : Prop where
  kernelStart : setup.kernelStart % PGSIZE = 0
  kernelEnd : setup.kernelEnd % PGSIZE = 0
  userStart : setup.userStart % PGSIZE = 0
  userEnd : setup.userEnd % PGSIZE = 0
  bmBase : setup.bmBase % PGSIZE = 0
  kernel : setup.kernelStart ≤ setup.kernelEnd
  user : setup.userStart ≤ setup.userEnd

/-- A region is in the kernel pool, in the user pool behind it, or goes from the one to the other. -/
def Setup.Cuts (setup : Setup) (r : Region) : Prop :=
  setup.kernelStart ≤ r.start ∧ (r.finish ≤ setup.kernelEnd ∨
    (setup.kernelEnd ≤ r.start ∧ setup.userStart ≤ r.start ∧ r.finish ≤ setup.userEnd) ∨
    setup.userStart = setup.kernelEnd ∧ r.finish ≤ setup.userEnd)

/-- The end of the bitmaps. -/
def Setup.bound (setup : Setup) : ℕ := setup.userArea.hi

/-- An address is in one of the pools. -/
def Setup.InPool (setup : Setup) (a : ℕ) : Prop :=
  (setup.kernelStart ≤ a ∧ a < setup.kernelEnd) ∨ (setup.userStart ≤ a ∧ a < setup.userEnd)

/-- The pools. -/
def Setup.pools (setup : Setup) : Pools := ⟨setup.kernelArea.pool, setup.userArea.pool⟩

/-- A page of a region behind the bitmaps. -/
def Region.Has (r : Region) (bound x : ℕ) : Prop :=
  bound ≤ x * PGSIZE ∧ r.start ≤ x * PGSIZE ∧ x * PGSIZE < r.finish

/-- The bitmaps of the pools show these pages as free. -/
structure Setup.Shows (setup : Setup) (mem : Memory) (kernelFree userFree : ℕ → Prop) : Prop where
  kernel : PoolOk mem setup.kernelArea kernelFree
  user : PoolOk mem setup.userArea userFree

variable {setup : Setup} {mem mem' : Memory} {area : Area} {r : Region} {rs : List Region}
  {free kernelFree userFree : ℕ → Prop} {bmBase start finish a b n : ℕ}

/-! ### One pool -/

theorem newArea_end (bmBase : ℕ) (hstart : start % PGSIZE = 0) (hfinish : finish % PGSIZE = 0)
    (hle : start ≤ finish) :
    start + (newArea bmBase start finish).count * PGSIZE = finish := by
  simp only [newArea, PGSIZE] at hstart hfinish ⊢
  omega

theorem pageFromPool_range (hpool : PoolOk mem (newArea bmBase start finish) free)
    (hstart : start % PGSIZE = 0) (hfinish : finish % PGSIZE = 0) (hle : start ≤ finish) (a : ℕ) :
    pageFromPool mem (newArea bmBase start finish).pool a = true ↔ start ≤ a ∧ a < finish := by
  have hend := newArea_end bmBase hstart hfinish hle
  rw [pageFromPool, hpool.size, Bool.and_eq_true, decide_eq_true_iff, decide_eq_true_iff]
  generalize (newArea bmBase start finish).count = count at hend ⊢
  change start / 4096 ≤ a / 4096 ∧ a / 4096 < start / 4096 + count ↔ _
  simp only [PGSIZE] at hstart hend
  omega

/-- The pages between two addresses in a pool become free. -/
theorem clear_range (hpool : PoolOk mem (newArea bmBase start finish) free)
    (hstart : start % PGSIZE = 0) (hfinish : finish % PGSIZE = 0) (ha : a % PGSIZE = 0)
    (hb : b % PGSIZE = 0) (hlow : start ≤ a) (hle : a ≤ b) (hhigh : b ≤ finish) :
    ∃ mem', bitmapSetMultiple mem (newArea bmBase start finish).pool.usedMap
        (pgNo a - pgNo start) ((b - a) / PGSIZE) false = some mem' ∧
      PoolOk mem' (newArea bmBase start finish)
        (fun x ↦ free x ∨ a ≤ x * PGSIZE ∧ x * PGSIZE < b) ∧
      ∀ i, ¬(newArea bmBase start finish).Stores i → mem' i = mem i := by
  have hend := newArea_end bmBase hstart hfinish (by omega)
  have hidx : pgNo a - pgNo start + (b - a) / PGSIZE ≤ (newArea bmBase start finish).count := by
    generalize (newArea bmBase start finish).count = count at hend ⊢
    simp only [pgNo, PGSIZE] at *
    omega
  obtain ⟨mem', hset, hok, hsame⟩ := hpool.clear hidx
  refine ⟨mem', hset, hok.congr fun x _ ↦ or_congr_right ?_, hsame⟩
  change _ ↔ pgNo start + (pgNo a - pgNo start) ≤ x ∧
    x < pgNo start + (pgNo a - pgNo start) + (b - a) / PGSIZE
  simp only [pgNo, PGSIZE] at *
  omega

/-- A range that ends in the pool in which it starts. -/
theorem markFree_one {pools : Pools} (hpool : PoolOk mem (newArea bmBase start finish) free)
    (hof : poolOf pools mem a = some (newArea bmBase start finish).pool)
    (hstart : start % PGSIZE = 0) (hfinish : finish % PGSIZE = 0) (ha : a % PGSIZE = 0)
    (hb : b % PGSIZE = 0) (hlow : start ≤ a) (hle : a ≤ b) (hhigh : b ≤ finish) :
    ∃ mem', markFree pools (n + 1) a b mem = some mem' ∧
      PoolOk mem' (newArea bmBase start finish)
        (fun x ↦ free x ∨ a ≤ x * PGSIZE ∧ x * PGSIZE < b) ∧
      ∀ i, ¬(newArea bmBase start finish).Stores i → mem' i = mem i := by
  obtain ⟨mem', hset, hok, hsame⟩ := clear_range hpool hstart hfinish ha hb hlow hle hhigh
  have hend := newArea_end bmBase hstart hfinish (by omega)
  refine ⟨mem', ?_, hok, hsame⟩
  rw [markFree, hof, Option.bind_eq_bind, Option.bind_some, hpool.size]
  change (if start + (newArea bmBase start finish).count * PGSIZE < b then _ else _) = _
  rw [hend, if_neg (by omega)]
  exact hset

/-- A range that goes on behind the pool in which it starts. -/
theorem markFree_more {pools : Pools} (hpool : PoolOk mem (newArea bmBase start finish) free)
    (hof : poolOf pools mem a = some (newArea bmBase start finish).pool)
    (hstart : start % PGSIZE = 0) (hfinish : finish % PGSIZE = 0) (ha : a % PGSIZE = 0)
    (hlow : start ≤ a) (hle : a ≤ finish) (hhigh : finish < b) :
    ∃ mem', markFree pools (n + 1) a b mem = markFree pools n finish b mem' ∧
      PoolOk mem' (newArea bmBase start finish)
        (fun x ↦ free x ∨ a ≤ x * PGSIZE ∧ x * PGSIZE < finish) ∧
      ∀ i, ¬(newArea bmBase start finish).Stores i → mem' i = mem i := by
  obtain ⟨mem', hset, hok, hsame⟩ :=
    clear_range hpool hstart hfinish ha hfinish hlow hle (Nat.le_refl finish)
  have hend := newArea_end bmBase hstart hfinish (by omega)
  refine ⟨mem', ?_, hok, hsame⟩
  have hbase : (newArea bmBase start finish).pool.base = start := rfl
  rw [markFree, hof, Option.bind_eq_bind, Option.bind_some, hpool.size]
  simp only [hbase, hend, if_pos hhigh, hset, Option.bind_eq_bind, Option.bind_some]

/-! ### Both pools -/

theorem Setup.Shape.bound_mod (h : setup.Shape) : setup.bound % PGSIZE = 0 := by
  have hbase := h.bmBase
  simp only [Setup.bound, Setup.userArea, Setup.kernelArea, newArea, bmPages, PGSIZE] at hbase ⊢
  omega

/-- The bitmap of the user pool is behind that of the kernel pool. -/
theorem not_stores_of_stores {i : ℕ} (h : setup.kernelArea.Stores i) : ¬setup.userArea.Stores i :=
  fun h' ↦ Nat.not_lt_of_le h'.1 h.2

theorem poolOf_kernel (hshape : setup.Shape) (hshows : setup.Shows mem kernelFree userFree)
    (hlow : setup.kernelStart ≤ a) (hhigh : a < setup.kernelEnd) :
    poolOf setup.pools mem a = some setup.kernelArea.pool :=
  if_pos ((pageFromPool_range hshows.kernel hshape.kernelStart hshape.kernelEnd hshape.kernel a).mpr
    ⟨hlow, hhigh⟩)

theorem not_pageFromPool_kernel (hshape : setup.Shape)
    (hshows : setup.Shows mem kernelFree userFree)
    (hout : ¬(setup.kernelStart ≤ a ∧ a < setup.kernelEnd)) :
    ¬pageFromPool mem setup.pools.kernelPool a = true := fun hin ↦
  hout ((pageFromPool_range hshows.kernel hshape.kernelStart hshape.kernelEnd hshape.kernel a).mp hin)

theorem poolOf_user (hshape : setup.Shape) (hshows : setup.Shows mem kernelFree userFree)
    (hout : ¬(setup.kernelStart ≤ a ∧ a < setup.kernelEnd)) (hlow : setup.userStart ≤ a)
    (hhigh : a < setup.userEnd) : poolOf setup.pools mem a = some setup.userArea.pool := by
  rw [poolOf, if_neg (not_pageFromPool_kernel hshape hshows hout)]
  exact if_pos ((pageFromPool_range hshows.user hshape.userStart hshape.userEnd hshape.user a).mpr
    ⟨hlow, hhigh⟩)

theorem poolOf_none (hshape : setup.Shape) (hshows : setup.Shows mem kernelFree userFree)
    (hout : ¬setup.InPool a) : poolOf setup.pools mem a = none := by
  obtain ⟨hkernel, huser⟩ := not_or.mp hout
  rw [poolOf, if_neg (not_pageFromPool_kernel hshape hshows hkernel)]
  exact if_neg fun hin ↦
    huser ((pageFromPool_range hshows.user hshape.userStart hshape.userEnd hshape.user a).mp hin)

theorem pgRoundUp_of_mod (h : a % PGSIZE = 0) : pgRoundUp a = a := by
  simp only [pgRoundUp, PGSIZE] at h ⊢
  omega

/-- The pages of the pools after the pages of a region have been made free. -/
abbrev Setup.ShowsMore (setup : Setup) (mem : Memory) (r : Region)
    (kernelFree userFree : ℕ → Prop) : Prop :=
  setup.Shows mem (fun x ↦ kernelFree x ∨ r.Has setup.bound x ∧ x * PGSIZE < setup.kernelEnd)
    fun x ↦ userFree x ∨ r.Has setup.bound x ∧ setup.kernelEnd ≤ x * PGSIZE

/-- The pages of a region behind the bitmaps become free. -/
theorem markRegion_spec (hshape : setup.Shape) (hr : r.Ok) (hcuts : setup.Cuts r)
    (hshows : setup.Shows mem kernelFree userFree)
    (hin : r.finish = setup.bound → setup.InPool setup.bound) :
    ∃ mem', markRegion setup.pools setup.bound mem r = some mem' ∧
      setup.ShowsMore mem' r kernelFree userFree := by
  have hfinish := hr.finish_eq
  have hpages := hr.pages_pos
  have hlow := hcuts.1
  have hstartMod := hr.start
  have hboundMod := hshape.bound_mod
  have hfinishMod : r.finish % PGSIZE = 0 := by
    simp only [PGSIZE] at hfinish hstartMod ⊢
    omega
  have hlt : r.start < r.finish := by
    simp only [PGSIZE] at hfinish
    omega
  by_cases hskip : r.finish < setup.bound
  · refine ⟨mem, if_pos hskip, hshows.kernel.congr fun x _ ↦ ?_, hshows.user.congr fun x _ ↦ ?_⟩
    all_goals
      refine or_iff_left ?_
      rintro ⟨⟨hbound, -, hbelow⟩, -⟩
      omega
  · obtain ⟨first, hfirst⟩ : ∃ a, a = max r.start setup.bound := ⟨_, rfl⟩
    have hmod : first % PGSIZE = 0 := by
      rcases max_choice r.start setup.bound with h | h <;> rw [hfirst, h] <;> assumption
    have hhas : ∀ x, r.Has setup.bound x ↔ first ≤ x * PGSIZE ∧ x * PGSIZE < r.finish := fun x ↦ by
      simp only [Region.Has]
      omega
    obtain ⟨rounds, hrounds⟩ : ∃ n, r.pages + 1 = n + 1 + 1 := ⟨r.pages - 1, by omega⟩
    have hmark : markRegion setup.pools setup.bound mem r =
        markFree setup.pools (rounds + 1 + 1) first r.finish mem := by
      rw [markRegion, if_neg hskip, hrounds, ← hfirst, pgRoundUp_of_mod hmod]
    rw [hmark]
    by_cases hkernel : first < setup.kernelEnd
    · have hof := poolOf_kernel hshape hshows (a := first) (by omega) hkernel
      by_cases hend : r.finish ≤ setup.kernelEnd
      · obtain ⟨mem', hfree, hok, hsame⟩ := markFree_one (n := rounds + 1) hshows.kernel hof
          hshape.kernelStart hshape.kernelEnd hmod hfinishMod (by omega) (by omega) hend
        refine ⟨mem', hfree, hok.congr fun x _ ↦ or_congr_right ?_,
          (hshows.user.frame fun i hi ↦ hsame i fun hi' ↦ not_stores_of_stores hi' hi).congr
            fun x _ ↦ or_iff_left ?_⟩
        · rw [hhas]
          omega
        · rw [hhas]
          omega
      · have hnext : setup.userStart = setup.kernelEnd ∧ r.finish ≤ setup.userEnd := by
          rcases hcuts.2 with h | h | h
          · exact absurd h hend
          · omega
          · exact h
        obtain ⟨mem₁, hmore, hok₁, hsame₁⟩ := markFree_more (n := rounds + 1) (b := r.finish)
          hshows.kernel hof
          hshape.kernelStart hshape.kernelEnd hmod (by omega) (by omega) (by omega)
        have hshows₁ : setup.Shows mem₁ _ userFree :=
          ⟨hok₁, hshows.user.frame fun i hi ↦ hsame₁ i fun hi' ↦ not_stores_of_stores hi' hi⟩
        have hof₁ := poolOf_user hshape hshows₁ (a := setup.kernelEnd) (by omega) (by omega) (by omega)
        obtain ⟨mem', hfree, hok, hsame⟩ := markFree_one (n := rounds) hshows₁.user hof₁
          hshape.userStart hshape.userEnd hshape.kernelEnd hfinishMod (by omega) (by omega) hnext.2
        refine ⟨mem', hmore.trans hfree,
          (hok₁.frame fun i hi ↦ hsame i (not_stores_of_stores hi)).congr fun x _ ↦
            or_congr_right ?_, hok.congr fun x _ ↦ or_congr_right ?_⟩
        · rw [hhas]
          omega
        · rw [hhas]
          omega
    · have hout : ¬(setup.kernelStart ≤ first ∧ first < setup.kernelEnd) := fun h ↦ hkernel h.2
      have huser : setup.userStart ≤ first ∧ first < setup.userEnd := by
        by_cases hinside : first < r.finish
        · rcases hcuts.2 with h | h | h <;> omega
        · have hbound : r.finish = setup.bound := by omega
          have hpool := (hin hbound).resolve_left (by omega)
          omega
      have hend : r.finish ≤ setup.userEnd := by
        rcases hcuts.2 with h | h | h <;> omega
      have hof := poolOf_user hshape hshows hout huser.1 huser.2
      obtain ⟨mem', hfree, hok, hsame⟩ := markFree_one (n := rounds + 1) hshows.user hof
        hshape.userStart hshape.userEnd hmod hfinishMod huser.1 (by omega) hend
      refine ⟨mem', hfree,
        (hshows.kernel.frame fun i hi ↦ hsame i (not_stores_of_stores hi)).congr fun x _ ↦
          or_iff_left ?_, hok.congr fun x _ ↦ or_congr_right ?_⟩
      · rw [hhas]
        omega
      · rw [hhas]
        omega

/-- A region that ends where the bitmaps do, at a page of no pool, is not passed over. -/
theorem markRegion_none (hshape : setup.Shape)
    (hshows : setup.Shows mem kernelFree userFree) (hfinish : r.finish = setup.bound)
    (hout : ¬setup.InPool setup.bound) : markRegion setup.pools setup.bound mem r = none := by
  have hle : r.start ≤ setup.bound := by
    rw [← hfinish]
    exact Nat.le_add_right ..
  rw [markRegion, if_neg (by omega), Nat.max_eq_right hle, pgRoundUp_of_mod hshape.bound_mod, markFree,
    poolOf_none hshape hshows hout]
  rfl

/-- The pages of all regions behind the bitmaps become free. -/
theorem markRegions_spec (hshape : setup.Shape) (hok : ∀ r ∈ rs, r.Ok) (hcuts : ∀ r ∈ rs, setup.Cuts r)
    (hshows : setup.Shows mem kernelFree userFree)
    (hin : ∀ r ∈ rs, r.finish = setup.bound → setup.InPool setup.bound) :
    ∃ mem', rs.foldlM (markRegion setup.pools setup.bound) mem = some mem' ∧
      setup.Shows mem'
        (fun x ↦ kernelFree x ∨ (∃ r ∈ rs, r.Has setup.bound x) ∧ x * PGSIZE < setup.kernelEnd)
        fun x ↦ userFree x ∨ (∃ r ∈ rs, r.Has setup.bound x) ∧ setup.kernelEnd ≤ x * PGSIZE := by
  induction rs generalizing mem kernelFree userFree with
  | nil => exact ⟨mem, rfl, hshows.kernel.congr fun x _ ↦ by simp, hshows.user.congr fun x _ ↦ by simp⟩
  | cons r rs ih =>
    obtain ⟨mem₁, hmark, hshows₁⟩ := markRegion_spec hshape (hok r List.mem_cons_self)
      (hcuts r List.mem_cons_self) hshows (hin r List.mem_cons_self)
    obtain ⟨mem', hrest, hshows'⟩ := ih (fun r hr ↦ hok r (List.mem_cons_of_mem _ hr))
      (fun r hr ↦ hcuts r (List.mem_cons_of_mem _ hr)) hshows₁
      fun r hr ↦ hin r (List.mem_cons_of_mem _ hr)
    refine ⟨mem', ?_, hshows'.kernel.congr fun x _ ↦ ?_, hshows'.user.congr fun x _ ↦ ?_⟩
    · rw [List.foldlM_cons, hmark, Option.bind_eq_bind, Option.bind_some, hrest]
    all_goals simp only [List.exists_mem_cons_iff, or_and_right, or_assoc]

/-- The second loop fails at such a region. -/
theorem markRegions_none (hshape : setup.Shape) (hok : ∀ r ∈ rs, r.Ok)
    (hcuts : ∀ r ∈ rs, setup.Cuts r) (hshows : setup.Shows mem kernelFree userFree)
    (hend : ∃ r ∈ rs, r.finish = setup.bound) (hout : ¬setup.InPool setup.bound) :
    rs.foldlM (markRegion setup.pools setup.bound) mem = none := by
  induction rs generalizing mem kernelFree userFree with
  | nil =>
    obtain ⟨r, hr, -⟩ := hend
    exact absurd hr List.not_mem_nil
  | cons r rs ih =>
    rw [List.foldlM_cons]
    have hr := hok r List.mem_cons_self
    by_cases hfinish : r.finish = setup.bound
    · rw [markRegion_none hshape hshows hfinish hout]
      rfl
    · obtain ⟨mem₁, hmark, hshows₁⟩ :=
        markRegion_spec hshape hr (hcuts r List.mem_cons_self) hshows fun h ↦ absurd h hfinish
      rw [hmark, Option.bind_eq_bind, Option.bind_some]
      refine ih (fun r hr ↦ hok r (List.mem_cons_of_mem _ hr))
        (fun r hr ↦ hcuts r (List.mem_cons_of_mem _ hr)) hshows₁ ?_
      exact ((List.exists_mem_cons_iff ..).mp hend).resolve_left hfinish

end Jungle.Pages
