import Jungle.Pages.Marking

/-!
# Memory maps that are populated

`populate_pools` gets through, with pools that are apart and with every usable page behind the bitmaps free
in one of them, exactly if there are user pages, the kernel's pages end where a region ends or in the last
region, and the bitmaps do not end where the last region does, nor where the kernel pool does before a gap
(`populatePools_iff`).
-/

set_option autoImplicit false
set_option relaxedAutoImplicit false

namespace Jungle.Pages

open Jungle.Lib Jungle.Bitmap

/-- A page of a pool whose bit is clear. -/
def MarkedFree (mem : Memory) (pool : Pool) (page : ℕ) : Prop :=
  pageFromPool mem pool page = true ∧
    bitmapTest mem pool.usedMap (pgNo page - pgNo pool.base) = some false

/-- The pools have no page in common, and every page of a region behind the bitmaps is free in exactly one
of them. -/
structure Populated (rs : List Region) (pools : Pools) (usableBound : ℕ) (mem : Memory) : Prop where
  apart : ∀ page, pageFromPool mem pools.kernelPool page = true →
    ¬pageFromPool mem pools.userPool page = true
  free : ∀ r ∈ rs, ∀ page, page % PGSIZE = 0 → r.start ≤ page → page < r.finish →
    usableBound ≤ page → ∃! user, MarkedFree mem (pools.pool user) page

/-- The pools that `populate_pools` makes for so many kernel pages. -/
def setupOf (rs : List Region) (kernPages bmBase : ℕ) : Setup where
  kernelStart := startOf rs
  kernelEnd := boundary rs kernPages
  userStart := if kernPages < pageCount rs then pageAddr rs kernPages else startOf rs
  userEnd := lastEnd 0 rs
  bmBase := bmBase
  usable := []

/-- When the pools can be populated. -/
structure Populable (rs : List Region) (user bound : ℕ) : Prop where
  pages : 0 < user
  cut : BoundaryOk rs (pageCount rs - user)
  last : bound ≠ lastEnd 0 rs
  gap : bound = boundary rs (pageCount rs - user) →
    boundary rs (pageCount rs - user) = pageAddr rs (pageCount rs - user)

variable {rs : List Region} {entries : List E820Entry} {k bmBase user kernelImageEnd : ℕ}
  {mem : Memory}

/-! ### The pages of the map -/

theorem extend_size (area : AreaInfo) (entry : E820Entry) :
    (area.extend entry).size = area.size + entry.len := by
  rw [AreaInfo.extend]
  split_ifs with h
  · rw [h, Nat.zero_add]
  · rfl

theorem foldl_resolveEntry_size (usable : List E820Entry) (areas : AreaInfo × AreaInfo)
    (h : ∀ entry ∈ usable, Region.Ok ⟨entry.mem + KERN_BASE, entry.len⟩) :
    (usable.foldl resolveEntry areas).1.size + (usable.foldl resolveEntry areas).2.size =
      areas.1.size + areas.2.size +
        pageCount (usable.map fun entry ↦ ⟨entry.mem + KERN_BASE, entry.len⟩) * PGSIZE := by
  induction usable generalizing areas with
  | nil => simp [pageCount]
  | cons entry usable ih =>
    have hlen : entry.len = Region.pages ⟨entry.mem + KERN_BASE, entry.len⟩ * PGSIZE :=
      (h entry List.mem_cons_self).size_eq
    have hstep : (resolveEntry areas entry).1.size + (resolveEntry areas entry).2.size =
        areas.1.size + areas.2.size + entry.len := by
      rw [resolveEntry]
      split_ifs
      · simp only [extend_size]
        omega
      · simp only [extend_size]
        omega
    rw [List.foldl_cons, ih _ fun entry hentry ↦ h entry (List.mem_cons_of_mem _ hentry), hstep,
      List.map_cons, pageCount, Nat.add_mul, ← hlen, Nat.add_assoc]

/-- The sizes of the areas are those of the regions. -/
theorem resolveAreaInfo_size (h : ∀ r ∈ regions entries, r.Ok) :
    (resolveAreaInfo entries).1.size + (resolveAreaInfo entries).2.size =
      pageCount (regions entries) * PGSIZE := by
  have hok : ∀ entry ∈ entries.filter E820Entry.isUsable,
      Region.Ok ⟨entry.mem + KERN_BASE, entry.len⟩ :=
    fun entry hentry ↦ h _ (List.mem_map_of_mem hentry)
  exact (foldl_resolveEntry_size _ _ hok).trans (Nat.zero_add _)

/-- `total_pages` -/
theorem totalPages_eq (h : ∀ r ∈ regions entries, r.Ok) :
    ((resolveAreaInfo entries).1.size + (resolveAreaInfo entries).2.size) / PGSIZE =
      pageCount (regions entries) := by
  rw [resolveAreaInfo_size h, Nat.mul_div_cancel _ (by decide)]

theorem userPages_le (totalPages userPageLimit : ℕ) :
    userPages totalPages userPageLimit ≤ totalPages / 2 := by
  unfold userPages
  split_ifs <;> omega

/-! ### The pools -/

section Setup

variable (hmap : ValidMap rs) (hpos : 0 < k) (hk : k ≤ pageCount rs)
include hmap hpos hk

theorem setupOf_shape (hbase : bmBase % PGSIZE = 0) : (setupOf rs k bmBase).Shape := by
  have hrange := boundary_range hmap hpos hk 0
  obtain ⟨r, rest, rfl⟩ := List.exists_cons_of_ne_nil hmap.ne
  have hstart : startOf (r :: rest) % PGSIZE = 0 := hmap.head.start
  refine ⟨hstart, hrange.1, ?_, lastEnd_mod hmap.ok (Nat.zero_mod _), hbase, hrange.2.1.le, ?_⟩
  all_goals
    simp only [setupOf]
    split_ifs with hlt
  · exact (pageAddr_range hmap hlt 0).1
  · exact hstart
  · exact (pageAddr_range hmap hlt 0).2.2.1.le
  · omega

theorem setupOf_cuts (hok : BoundaryOk rs k) : ∀ r ∈ rs, (setupOf rs k bmBase).Cuts r := by
  intro r hr
  refine ⟨hmap.start_le r hr, (region_cases hmap hpos hk hok r hr).imp_right ?_⟩
  rintro ⟨hlt, hbehind⟩
  have hrange := (pageAddr_range hmap hlt 0).2.2.2 hpos
  have hend := hmap.finish_le 0 r hr
  simp only [setupOf, if_pos hlt]
  rcases hbehind with hbehind | hsame
  · exact Or.inl ⟨by omega, hbehind, hend⟩
  · exact Or.inr ⟨hsame, hend⟩

/-- The regions are where addresses have room for the bitmaps behind them. -/
theorem setupOf_fits (hbase : bmBase ≤ lastEnd 0 rs + PGSIZE) :
    lastEnd 0 rs ≤ 2 ^ 64 ∧ (setupOf rs k bmBase).bound ≤ 2 ^ 64 := by
  obtain ⟨r, hr, hlast⟩ := exists_lastEnd hmap.ne 0
  have hhigh := (hmap.ok r hr).high
  have hrange := boundary_range hmap hpos hk 0
  rw [hlast] at hhigh
  simp only [KERN_BASE, PGSIZE] at hhigh hbase
  refine ⟨by omega, ?_⟩
  simp only [setupOf, Setup.bound, Setup.userArea, Setup.kernelArea, newArea, bmPages, bitmapBufSize,
    byteCnt, elemCnt, ELEM_BITS, PGSIZE]
  omega

/-- The first loop makes the kernel pool, and the user pool is made behind it. -/
theorem pools_made (huser : k + user = pageCount rs) (hok : BoundaryOk rs k)
    (hbase : bmBase ≤ lastEnd 0 rs + PGSIZE) (mem : Memory) :
    ∃ (w : Walk) (mem' : Memory),
      rs.foldlM (poolStep user) ⟨.kernStart, k, 0, 0, ⟨0, 0⟩, bmBase, mem⟩ = some w ∧
      w.kernelPool = (setupOf rs k bmBase).kernelArea.pool ∧
      initPool w.mem w.freeStart w.regionStart w.finish =
        some ((setupOf rs k bmBase).userArea.pool, (setupOf rs k bmBase).bound, mem') ∧
      (setupOf rs k bmBase).Shows mem' (fun _ ↦ False) fun _ ↦ False := by
  obtain ⟨hend, hbound⟩ := setupOf_fits hmap hpos hk hbase
  have hrange := boundary_range hmap hpos hk 0
  have hkernelHi : (setupOf rs k bmBase).kernelArea.hi ≤ (setupOf rs k bmBase).bound :=
    Nat.le_add_right ..
  have hkernelFits : (newArea bmBase (startOf rs) (boundary rs k)).hi ≤ 2 ^ 64 :=
    hkernelHi.trans hbound
  obtain ⟨mem₁, hkernel, hpool₁, -⟩ := initPool_spec mem (hrange.2.2.trans hend) hkernelFits
  obtain ⟨mem₂, huserPool, hpool₂, hsame₂⟩ := initPool_spec mem₁ hend hbound
  obtain ⟨r, rest, rfl⟩ := List.exists_cons_of_ne_nil hmap.ne
  obtain ⟨state, rem, hwalk⟩ := walk_spec
    (w := ⟨.kern, k, r.start, 0, ⟨0, 0⟩, bmBase, mem⟩) hmap rfl hpos huser hok hkernel
  have hpool : PoolOk mem₂ (setupOf (r :: rest) k bmBase).kernelArea fun _ ↦ False :=
    hpool₁.frame fun i hi ↦ hsame₂ i (not_stores_of_stores
      (show (setupOf (r :: rest) k bmBase).kernelArea.Stores i from hi))
  refine ⟨_, mem₂, hwalk, rfl, ?_, hpool, hpool₂⟩
  have hstart : (if 0 < user then pageAddr (r :: rest) k else r.start) =
      (setupOf (r :: rest) k bmBase).userStart := by
    simp only [setupOf, startOf]
    split_ifs <;> first | rfl | omega
  simp only [hstart]
  exact huserPool

end Setup

/-- The user pool is behind the kernel pool, if it has pages. -/
theorem setupOf_user (hmap : ValidMap rs) (hpos : 0 < k) (hlt : k < pageCount rs) :
    (setupOf rs k bmBase).kernelEnd ≤ (setupOf rs k bmBase).userStart ∧
      (setupOf rs k bmBase).userStart < lastEnd 0 rs := by
  obtain ⟨-, -, hend, hle⟩ := pageAddr_range hmap hlt 0
  simp only [setupOf, if_pos hlt]
  exact ⟨hle hpos, hend⟩

/-! ### What is shown at the end -/

theorem MarkedFree.of_shows {area : Area} {free : ℕ → Prop} (h : PoolOk mem area free) {page : ℕ}
    (hin : pageFromPool mem area.pool page = true) (hfree : free (pgNo page)) :
    MarkedFree mem area.pool page := by
  refine ⟨hin, ?_⟩
  rw [pageFromPool, h.size, Bool.and_eq_true, decide_eq_true_iff, decide_eq_true_iff] at hin
  obtain ⟨f, hbits, hclear⟩ := h.bits
  have hidx : pgNo page - pgNo area.pool.base < area.count := by omega
  have hpage : area.first + (pgNo page - pgNo area.pool.base) = pgNo page := by
    simp only [Area.first]
    omega
  rw [bitmapTest_eq hbits hidx, (hclear _ hidx).mpr (hpage.symm ▸ hfree)]

theorem pgNo_mul {page : ℕ} (h : page % PGSIZE = 0) : pgNo page * PGSIZE = page := by
  simp only [pgNo, PGSIZE] at h ⊢
  omega

/-- The pools are populated when both loops get through and there are user pages. -/
theorem populated_of_shows {setup : Setup} (hshape : setup.Shape)
    (hapart : setup.kernelEnd ≤ setup.userStart) (hcuts : ∀ r ∈ rs, setup.Cuts r)
    (hshows : setup.Shows mem
      (fun x ↦ False ∨ (∃ r ∈ rs, r.Has setup.bound x) ∧ x * PGSIZE < setup.kernelEnd)
      fun x ↦ False ∨ (∃ r ∈ rs, r.Has setup.bound x) ∧ setup.kernelEnd ≤ x * PGSIZE) :
    Populated rs setup.pools setup.bound mem := by
  have hkernel := pageFromPool_range hshows.kernel hshape.kernelStart hshape.kernelEnd hshape.kernel
  have huser := pageFromPool_range hshows.user hshape.userStart hshape.userEnd hshape.user
  have hdisjoint : ∀ page, pageFromPool mem setup.pools.kernelPool page = true →
      ¬pageFromPool mem setup.pools.userPool page = true := by
    intro page hin hin'
    have hlt := ((hkernel page).mp hin).2
    have hle := ((huser page).mp hin').1
    omega
  refine ⟨hdisjoint, fun r hr page hmod hlow hhigh hbound ↦ ?_⟩
  have hhas : ∃ r ∈ rs, r.Has setup.bound (pgNo page) :=
    ⟨r, hr, by rw [Region.Has, pgNo_mul hmod]; exact ⟨hbound, hlow, hhigh⟩⟩
  have hcut := hcuts r hr
  have hstart := hcut.1
  by_cases hend : page < setup.kernelEnd
  · have hin := (hkernel page).mpr ⟨by omega, hend⟩
    refine ⟨false, MarkedFree.of_shows hshows.kernel hin (Or.inr ⟨hhas, ?_⟩), fun user hmarked ↦ ?_⟩
    · rwa [pgNo_mul hmod]
    · cases user
      · rfl
      · exact absurd hmarked.1 (hdisjoint page hin)
  · have hin := (huser page).mpr (by rcases hcut.2 with h | h | h <;> omega)
    refine ⟨true, MarkedFree.of_shows hshows.user hin (Or.inr ⟨hhas, ?_⟩), fun user hmarked ↦ ?_⟩
    · rw [pgNo_mul hmod]
      omega
    · cases user
      · exact absurd hin (hdisjoint page hmarked.1)
      · rfl

/-! ### `populate_pools` -/

/-- `usable_bound` -/
def usableBound (rs : List Region) (user kernelImageEnd : ℕ) : ℕ :=
  (setupOf rs (pageCount rs - user) (pgRoundUp kernelImageEnd)).bound

section

variable (hmap : ValidMap (regions entries))
include hmap

theorem kernPages_range (userPageLimit : ℕ) :
    0 < pageCount (regions entries) - userPages (pageCount (regions entries)) userPageLimit ∧
      pageCount (regions entries) - userPages (pageCount (regions entries)) userPageLimit +
        userPages (pageCount (regions entries)) userPageLimit = pageCount (regions entries) := by
  have hcount := pageCount_pos hmap
  have hle := userPages_le (pageCount (regions entries)) userPageLimit
  omega

/-- The machine starts with the first region. -/
theorem walk_start (user kernPages bmBase : ℕ) (mem : Memory) :
    (regions entries).foldlM (poolStep user) ⟨.kernStart, kernPages, 0, 0, ⟨0, 0⟩, bmBase, mem⟩ =
      (regions entries).foldlM (poolStep user)
        ⟨.kern, kernPages, startOf (regions entries), 0, ⟨0, 0⟩, bmBase, mem⟩ := by
  obtain ⟨r, rest, hrs⟩ := List.exists_cons_of_ne_nil hmap.ne
  rw [hrs]
  rfl

/-- A boundary inside a region with others behind it makes an assertion fail. -/
theorem populatePools_none (mem : Memory) (kernelImageEnd userPageLimit : ℕ)
    (h : ¬BoundaryOk (regions entries)
      (pageCount (regions entries) - userPages (pageCount (regions entries)) userPageLimit)) :
    populatePools mem entries (resolveAreaInfo entries).1 (resolveAreaInfo entries).2 kernelImageEnd
      userPageLimit = none := by
  obtain ⟨hpos, hsum⟩ := kernPages_range hmap userPageLimit
  rw [populatePools, totalPages_eq hmap.ok, walk_start hmap]
  dsimp only
  rw [walk_none (w := ⟨.kern, _, _, 0, ⟨0, 0⟩, _, mem⟩) hmap rfl hpos hsum h]
  rfl

/-- Otherwise both pools are made, and the second loop is run. -/
theorem populatePools_made (mem : Memory) {kernelImageEnd userPageLimit : ℕ}
    (himage : kernelImageEnd ≤ lastEnd 0 (regions entries))
    (h : BoundaryOk (regions entries)
      (pageCount (regions entries) - userPages (pageCount (regions entries)) userPageLimit))
    {setup : Setup} (hsetup : setup = setupOf (regions entries)
      (pageCount (regions entries) - userPages (pageCount (regions entries)) userPageLimit)
      (pgRoundUp kernelImageEnd)) :
    ∃ mem', setup.Shows mem' (fun _ ↦ False) (fun _ ↦ False) ∧
      populatePools mem entries (resolveAreaInfo entries).1 (resolveAreaInfo entries).2 kernelImageEnd
        userPageLimit = ((regions entries).foldlM (markRegion setup.pools setup.bound) mem').map
          fun mem ↦ (setup.pools, setup.bound, mem) := by
  obtain ⟨hpos, hsum⟩ := kernPages_range hmap userPageLimit
  have hbase : pgRoundUp kernelImageEnd ≤ lastEnd 0 (regions entries) + PGSIZE := by
    simp only [pgRoundUp, PGSIZE]
    omega
  obtain ⟨w, mem', hwalk, hkernel, huser, hshows⟩ :=
    pools_made hmap hpos (by omega) hsum h hbase mem
  subst hsetup
  refine ⟨mem', hshows, ?_⟩
  rw [populatePools, totalPages_eq hmap.ok]
  dsimp only
  rw [hwalk, Option.bind_eq_bind, Option.bind_some, huser, Option.bind_eq_bind, Option.bind_some,
    hkernel, Option.map_eq_bind]
  rfl

end

/-- Where the bitmaps end with a region, this is a page of a pool. -/
theorem Populable.inPool (hmap : ValidMap rs) (hpos : 0 < pageCount rs - user)
    (h : Populable rs user (usableBound rs user kernelImageEnd)) : ∀ r ∈ rs,
    r.finish = usableBound rs user kernelImageEnd →
      (setupOf rs (pageCount rs - user) (pgRoundUp kernelImageEnd)).InPool
        (usableBound rs user kernelImageEnd) := by
  intro r hr hfinish
  have huser := h.pages
  have hk : pageCount rs - user < pageCount rs := by omega
  have hcases := region_cases hmap hpos (Nat.sub_le _ _) h.cut r hr
  have hstart := hmap.start_le r hr
  have hlt := (hmap.ok r hr).lt
  have hend := hmap.finish_le 0 r hr
  have hlast := h.last
  have hgap := h.gap
  obtain ⟨-, -, haddr, hle⟩ := pageAddr_range hmap hk 0
  have hle := hle hpos
  rw [← hfinish] at hlast hgap ⊢
  simp only [Setup.InPool, setupOf, if_pos hk]
  rcases hcases with hbefore | ⟨-, hbehind | hsame⟩
  · rcases Nat.lt_or_eq_of_le hbefore with hbefore | heq
    · exact Or.inl ⟨by omega, hbefore⟩
    · have hsame := hgap heq
      exact Or.inr ⟨by omega, by omega⟩
  · exact Or.inr ⟨by omega, by omega⟩
  · by_cases hinside : r.finish < boundary rs (pageCount rs - user)
    · exact Or.inl ⟨by omega, hinside⟩
    · exact Or.inr ⟨by omega, by omega⟩

/-- If bitmaps end with a region at pages of the pools only, they end at none of the bad places. -/
theorem Populable.of_inPool {bound : ℕ} (hmap : ValidMap rs) (hpos : 0 < pageCount rs - user)
    (hpages : 0 < user) (hok : BoundaryOk rs (pageCount rs - user))
    (hin : ∀ r ∈ rs, r.finish = bound → (setupOf rs (pageCount rs - user) bmBase).InPool bound) :
    Populable rs user bound := by
  have hlt : pageCount rs - user < pageCount rs := by omega
  have hrange := boundary_range hmap hpos (Nat.sub_le _ _) 0
  have hbehind := (pageAddr_range hmap hlt 0).2.2.2 hpos
  simp only [Setup.InPool, setupOf, if_pos hlt] at hin
  refine ⟨hpages, hok, fun hlast ↦ ?_, fun hkernel ↦ by_contra fun hne ↦ ?_⟩
  · obtain ⟨r, hr, hfinish⟩ := exists_lastEnd hmap.ne 0
    have hpool := hin r hr (hfinish.trans hlast.symm)
    omega
  · obtain ⟨r, hr, hfinish⟩ := exists_finish_boundary hmap hpos hlt hne
    have hpool := hin r hr (hfinish.trans hkernel.symm)
    omega

/-- Without user pages the pools are the same. -/
theorem not_populated {bound : ℕ} {kernelFree userFree : ℕ → Prop} (hmap : ValidMap rs)
    (hshape : (setupOf rs (pageCount rs) bmBase).Shape)
    (hshows : (setupOf rs (pageCount rs) bmBase).Shows mem kernelFree userFree) :
    ¬Populated rs (setupOf rs (pageCount rs) bmBase).pools bound mem := by
  intro hpopulated
  have hrange := boundary_range hmap (pageCount_pos hmap) (Nat.le_refl _) 0
  have huser : (setupOf rs (pageCount rs) bmBase).userStart = startOf rs := if_neg (Nat.lt_irrefl _)
  refine hpopulated.apart (startOf rs) ?_ ?_
  · exact (pageFromPool_range hshows.kernel hshape.kernelStart hshape.kernelEnd hshape.kernel _).mpr
      ⟨Nat.le_refl _, hrange.2.1⟩
  · exact (pageFromPool_range hshows.user hshape.userStart hshape.userEnd hshape.user _).mpr
      ⟨huser.le, hrange.2.1.trans_le hrange.2.2⟩

/-- `populate_pools` gets through and makes pools that are populated exactly for these memory maps and
limits. -/
theorem populatePools_iff (hmap : ValidMap (regions entries))
    (himage : kernelImageEnd ≤ lastEnd 0 (regions entries)) (userPageLimit : ℕ) (mem : Memory) :
    (∃ pools bound mem', populatePools mem entries (resolveAreaInfo entries).1
        (resolveAreaInfo entries).2 kernelImageEnd userPageLimit = some (pools, bound, mem') ∧
      Populated (regions entries) pools bound mem') ↔
    Populable (regions entries) (userPages (pageCount (regions entries)) userPageLimit)
      (usableBound (regions entries) (userPages (pageCount (regions entries)) userPageLimit)
        kernelImageEnd) := by
  obtain ⟨hpos, hsum⟩ := kernPages_range hmap userPageLimit
  by_cases hok : BoundaryOk (regions entries)
    (pageCount (regions entries) - userPages (pageCount (regions entries)) userPageLimit)
  · obtain ⟨mem₁, hshows, hpopulate⟩ := populatePools_made hmap mem himage hok rfl
    rw [hpopulate, usableBound]
    generalize regions entries = rs at *
    generalize userPages (pageCount rs) userPageLimit = user at *
    have hbase : pgRoundUp kernelImageEnd % PGSIZE = 0 := Nat.mul_mod_left ..
    have hshape := setupOf_shape hmap hpos (Nat.sub_le _ _) hbase
    have hcuts : ∀ r ∈ rs, (setupOf rs (pageCount rs - user) (pgRoundUp kernelImageEnd)).Cuts r :=
      setupOf_cuts hmap hpos (Nat.sub_le _ _) hok
    by_cases hends : ∀ r ∈ rs,
        r.finish = (setupOf rs (pageCount rs - user) (pgRoundUp kernelImageEnd)).bound →
          (setupOf rs (pageCount rs - user) (pgRoundUp kernelImageEnd)).InPool
            (setupOf rs (pageCount rs - user) (pgRoundUp kernelImageEnd)).bound
    · obtain ⟨mem', hmark, hshows'⟩ := markRegions_spec hshape hmap.ok hcuts hshows hends
      rw [hmark, Option.map_some]
      rcases Nat.eq_zero_or_pos user with rfl | hpages
      · refine iff_of_false ?_ fun h ↦ Nat.lt_irrefl 0 h.pages
        rintro ⟨_, _, _, heq, hpopulated⟩
        obtain ⟨rfl, rfl, rfl⟩ := heq
        exact not_populated hmap hshape hshows' hpopulated
      · have hlt : pageCount rs - user < pageCount rs := by omega
        refine iff_of_true ⟨_, _, _, rfl, populated_of_shows hshape ?_ hcuts hshows'⟩
          (Populable.of_inPool hmap hpos hpages hok hends)
        exact (setupOf_user hmap hpos hlt).1
    · obtain ⟨r, hr⟩ := not_forall.mp hends
      obtain ⟨hr, hbad⟩ := not_forall.mp hr
      obtain ⟨hfinish, hout⟩ := not_forall.mp hbad
      rw [markRegions_none hshape hmap.ok hcuts hshows ⟨r, hr, hfinish⟩ hout]
      exact iff_of_false (fun ⟨_, _, _, h, _⟩ ↦ Option.some_ne_none _ h.symm)
        fun h ↦ hout (h.inPool hmap hpos r hr hfinish)
  · rw [populatePools_none hmap mem kernelImageEnd userPageLimit hok]
    exact iff_of_false (fun ⟨_, _, _, h, _⟩ ↦ Option.some_ne_none _ h.symm) fun h ↦ hok h.cut

theorem validMap_singleton {r : Region} (hr : r.Ok) : ValidMap [r] :=
  ⟨List.cons_ne_nil _ _, fun _ hr' ↦ List.mem_singleton.mp hr' ▸ hr, List.pairwise_singleton ..⟩

/-- One region of 64 pages at the first megabyte. -/
def oneEntry : List E820Entry := [⟨0x100000, 64 * PGSIZE, USABLE⟩]

/-- The region is divided between the pools. -/
theorem populatePools_one : ∃ pools bound mem', populatePools (fun _ ↦ 0) oneEntry
    (resolveAreaInfo oneEntry).1 (resolveAreaInfo oneEntry).2 (KERN_BASE + 0x101000) (2 ^ 64 - 1) =
      some (pools, bound, mem') ∧ Populated (regions oneEntry) pools bound mem' := by
  have hmap : ValidMap (regions oneEntry) := validMap_singleton ⟨by decide, by decide, by decide,
    by decide, by decide⟩
  exact (populatePools_iff hmap (by decide) _ _).mpr
    ⟨by decide, trivial, by decide, fun h ↦ absurd h (by decide)⟩

/-- The same region with two pages behind it. -/
def twoEntries : List E820Entry := oneEntry ++ [⟨0x200000, 2 * PGSIZE, USABLE⟩]

/-- An assertion fails, though the kernel image and the bitmaps are in the first region. -/
theorem not_populatePools : ValidMap (regions twoEntries) ∧
    usableBound (regions twoEntries) 33 (KERN_BASE + 0x101000) ≤ KERN_BASE + 0x140000 ∧
    populatePools (fun _ ↦ 0) twoEntries (resolveAreaInfo twoEntries).1 (resolveAreaInfo twoEntries).2
      (KERN_BASE + 0x101000) (2 ^ 64 - 1) = none := by
  have hmap : ValidMap (regions twoEntries) := by
    refine ⟨List.cons_ne_nil _ _, List.forall_mem_cons.mpr ⟨?_, fun r hr ↦ ?_⟩, ?_⟩
    · exact ⟨by decide, by decide, by decide, by decide, by decide⟩
    · rw [List.mem_singleton.mp hr]
      exact ⟨by decide, by decide, by decide, by decide, by decide⟩
    · exact List.pairwise_pair.mpr (by decide)
  refine ⟨hmap, by decide, populatePools_none hmap _ _ _ ?_⟩
  rintro (h | ⟨h, -⟩)
  · exact absurd h (by decide)
  · exact absurd h (by decide)

end Jungle.Pages
