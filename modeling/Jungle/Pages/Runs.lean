import Jungle.Lib.Run
import Jungle.Pages.Pools

/-!
# Runs of the page allocator

A run starts after the pools have been made and continues with calls of `palloc_get_multiple`, with
calls of `palloc_free_multiple` for pages handed out and not yet taken back, and with writes of their
owners to such pages. `run_pages_sound` says that the pages handed out are apart and usable, that the
bitmaps show exactly the others as free, and that the next call does what it should.
-/

set_option autoImplicit false
set_option relaxedAutoImplicit false

namespace Jungle.Pages

open Jungle.Lib Jungle.Bitmap

/-- The memory, and the pages handed out and not yet taken back with their number. -/
structure State where
  mem : Memory
  live : List (ℕ × ℕ)

/-- The page numbers of pages. -/
def pagesOf (r : ℕ × ℕ) : ℕ × ℕ := (pgNo r.1, r.2)

/-- What happens in a run. -/
inductive Call
  | get (flags : PallocFlags) (pageCnt : ℕ)
  | free (pages pageCnt : ℕ)
  | store (a : ℕ) (w : BitVec 64)

/-- One step. -/
inductive Step (pools : Pools) : State → Call → State → Prop
  | get {s : State} {flags : PallocFlags} {pageCnt pages : ℕ} {mem : Memory}
      (hget : pallocGetMultiple pools s.mem flags pageCnt = some (pages, mem)) :
      Step pools s (.get flags pageCnt)
        ⟨mem, if pages = 0 then s.live else (pages, pageCnt) :: s.live⟩
  | free {s : State} {pages pageCnt : ℕ} {mem : Memory} (hlive : (pages, pageCnt) ∈ s.live)
      (hfree : pallocFreeMultiple pools s.mem pages pageCnt = some mem) :
      Step pools s (.free pages pageCnt) ⟨mem, s.live.erase (pages, pageCnt)⟩
  | store {s : State} {a : ℕ} {w : BitVec 64} (haligned : a % 8 = 0)
      (hlive : Covered (s.live.map pagesOf) (pgNo a)) :
      Step pools s (.store a w) ⟨s.mem.write a w, s.live⟩

/-! ### The two pools -/

/-- The pools, their usable pages and their bitmaps do not meet. -/
structure Geometry (pools : Pools) (area : Bool → Area) (usable : ℕ → Prop) : Prop where
  pool : ∀ user, (area user).pool = pools.pool user
  valid : ∀ user, (area user).Valid
  apart : ∀ x, (area false).Has x → ¬(area true).Has x
  buffers : ∀ a, (area false).Stores a → ¬(area true).Stores a
  usable : ∀ x, usable x → ∀ user a, (area user).Stores a → pgNo a ≠ x

/-- The pools are in order. -/
structure Inv (area : Bool → Area) (usable : ℕ → Prop) (s : State) : Prop where
  pools : ∀ user, PoolOk s.mem (area user) (Free usable (s.live.map pagesOf))
  ledger : Ledger usable (s.live.map pagesOf)
  place : ∀ r ∈ s.live, ∃ user idx, r.1 = (area user).pool.base + PGSIZE * idx ∧
    idx + r.2 ≤ (area user).count

variable {pools : Pools} {area : Bool → Area} {usable : ℕ → Prop} {s : State} {idx cnt : ℕ}

theorem Geometry.has_unique (hgeo : Geometry pools area usable) {user user' : Bool} {x : ℕ}
    (h : (area user).Has x) (h' : (area user').Has x) : user = user' := by
  cases user <;> cases user'
  · rfl
  · exact absurd h' (hgeo.apart x h)
  · exact absurd h (hgeo.apart x h')
  · rfl

theorem Geometry.stores_unique (hgeo : Geometry pools area usable) {user user' : Bool} {a : ℕ}
    (h : (area user).Stores a) (h' : (area user').Stores a) : user = user' := by
  cases user <;> cases user'
  · rfl
  · exact absurd h' (hgeo.buffers a h)
  · exact absurd h (hgeo.buffers a h')
  · rfl

/-- The page number of a page of a pool. -/
theorem Geometry.pgNo_page (hgeo : Geometry pools area usable) (user : Bool) (idx : ℕ) :
    pgNo ((area user).pool.base + PGSIZE * idx) = (area user).first + idx := by
  rw [(hgeo.valid user).base_eq]
  simp only [pgNo, PGSIZE]
  omega

/-- The pages of a range in a pool. -/
theorem has_of_covers {user : Bool} (hidx : idx + cnt ≤ (area user).count) {x : ℕ}
    (hx : Covers ((area user).first + idx, cnt) x) : (area user).Has x := by
  obtain ⟨hle, hlt⟩ := hx
  exact ⟨by omega, by omega⟩

/-- Filling usable pages does not touch the bitmaps. -/
theorem Geometry.fill_same (hgeo : Geometry pools area usable) {user : Bool}
    (husable : ∀ x, Covers ((area user).first + idx, cnt) x → usable x) (mem : Memory)
    (w : BitVec 64) {user' : Bool} {a : ℕ} (ha : (area user').Stores a) :
    mem.fill ((area user).pool.base + PGSIZE * idx) (PGSIZE * cnt) w a = mem a := by
  refine Memory.fill_of_not_mem mem ?_ w
  rintro ⟨hle, hlt⟩
  refine hgeo.usable (pgNo a) (husable _ ?_) user' a ha rfl
  rw [(hgeo.valid user).base_eq] at hle hlt
  simp only [Covers, pgNo, PGSIZE] at hle hlt ⊢
  omega

/-- No pool has a usable page with the index `BITMAP_ERROR`. -/
def Distinct (area : Bool → Area) (usable : ℕ → Prop) : Prop := ∀ user, (area user).Distinct usable

theorem Distinct.free (h : Distinct area usable) (user : Bool) (live : List (ℕ × ℕ)) :
    (area user).Distinct (Free usable live) :=
  fun hcount hfree ↦ h user hcount hfree.1

/-! ### The calls -/

/-- `palloc_get_multiple` hands out a run of free pages, if there is one. -/
theorem get_found (hgeo : Geometry pools area usable) (hdistinct : Distinct area usable)
    (hinv : Inv area usable s) (flags : PallocFlags)
    (hrun : ∃ idx, IsFreeRun (area flags.user) (Free usable (s.live.map pagesOf)) cnt idx) :
    ∃ pages mem, pages ≠ 0 ∧ pallocGetMultiple pools s.mem flags cnt = some (pages, mem) ∧
      Inv area usable ⟨mem, (pages, cnt) :: s.live⟩ := by
  obtain ⟨result, mem₁, hscan, hfound, hnone⟩ :=
    (hinv.pools flags.user).scanAndFlip (hdistinct.free flags.user _) cnt
  have hresult : result ≠ BITMAP_ERROR := by
    intro hresult
    obtain ⟨idx, hidx⟩ := hrun
    exact (hnone hresult).2 idx hidx
  obtain ⟨hfree, hpool, hsame⟩ := hfound hresult
  have hbase := (hgeo.valid flags.user).pos
  have hpages : (area flags.user).pool.base + PGSIZE * result ≠ 0 := by omega
  have husable : ∀ x, Covers ((area flags.user).first + result, cnt) x → usable x :=
    fun x hx ↦ (hfree.2 x hx).1
  have hpagesOf : pagesOf ((area flags.user).pool.base + PGSIZE * result, cnt) =
      ((area flags.user).first + result, cnt) := by
    rw [pagesOf, hgeo.pgNo_page]
  have hpools₁ : ∀ user, PoolOk mem₁ (area user)
      (Free usable (((area flags.user).first + result, cnt) :: s.live.map pagesOf)) := by
    intro user
    by_cases huser : user = flags.user
    · subst huser
      exact hpool.congr fun x _ ↦ free_cons x
    · refine ((hinv.pools user).frame fun a ha ↦ hsame a fun ha' ↦ ?_).congr fun x hx ↦ ?_
      · exact huser (hgeo.stores_unique ha ha')
      · rw [free_cons, and_iff_left]
        exact fun hx' ↦ huser (hgeo.has_unique hx (has_of_covers hfree.1 hx'))
  let mem' := if flags.zero then
    mem₁.fill ((area flags.user).pool.base + PGSIZE * result) (PGSIZE * cnt) 0 else mem₁
  have hmem' : ∀ user a, (area user).Stores a → mem' a = mem₁ a := by
    intro user a ha
    cases hzero : flags.zero
    · simp only [mem', hzero, Bool.false_eq_true, if_false]
    · simp only [mem', hzero, if_true]
      exact hgeo.fill_same husable mem₁ 0 ha
  refine ⟨_, mem', hpages, ?_, ⟨fun user ↦ ?_, ?_, ?_⟩⟩
  · rw [hgeo.pool] at hscan hpages
    simp only [pallocGetMultiple, hscan, Option.bind_eq_bind, Option.bind_some, ne_eq, hresult,
      not_false_eq_true, if_true, hpages, Option.pure_def, hgeo.pool, mem']
  · rw [List.map_cons, hpagesOf]
    exact (hpools₁ user).frame (hmem' user)
  · rw [List.map_cons, hpagesOf]
    exact hinv.ledger.cons hfree.2
  · intro r hr
    rcases List.mem_cons.mp hr with rfl | hr
    · exact ⟨flags.user, result, rfl, hfree.1⟩
    · exact hinv.place r hr

/-- Without a run of free pages `palloc_get_multiple` returns `NULL` or panics. -/
theorem get_none (hgeo : Geometry pools area usable) (hdistinct : Distinct area usable)
    (hinv : Inv area usable s) (flags : PallocFlags)
    (hrun : ¬∃ idx, IsFreeRun (area flags.user) (Free usable (s.live.map pagesOf)) cnt idx) :
    pallocGetMultiple pools s.mem flags cnt = if flags.assert then none else some (0, s.mem) := by
  obtain ⟨result, mem₁, hscan, hfound, hnone⟩ :=
    (hinv.pools flags.user).scanAndFlip (hdistinct.free flags.user _) cnt
  have hresult : result = BITMAP_ERROR := by
    by_contra hresult
    exact hrun ⟨result, (hfound hresult).1⟩
  obtain ⟨rfl, -⟩ := hnone hresult
  rw [hgeo.pool] at hscan
  simp only [pallocGetMultiple, hscan, Option.bind_eq_bind, Option.bind_some, hresult, ne_eq,
    not_true_eq_false, if_false, Option.pure_def]

theorem pageFromPool_iff (hgeo : Geometry pools area usable) (hinv : Inv area usable s) (user : Bool)
    (page : ℕ) : pageFromPool s.mem (pools.pool user) page = true ↔ (area user).Has (pgNo page) := by
  have hsize := (hinv.pools user).size
  rw [hgeo.pool] at hsize
  rw [pageFromPool, hsize, Bool.and_eq_true, decide_eq_true_iff, decide_eq_true_iff, Area.Has, Covers,
    Area.first, hgeo.pool]

/-- A page leads to its pool. -/
theorem poolOf_eq (hgeo : Geometry pools area usable) (hinv : Inv area usable s) {user : Bool}
    {page : ℕ} (hpage : (area user).Has (pgNo page)) :
    poolOf pools s.mem page = some (pools.pool user) := by
  have hkernel := pageFromPool_iff hgeo hinv false page
  have huser := pageFromPool_iff hgeo hinv true page
  cases user with
  | false => exact if_pos (hkernel.mpr hpage)
  | true =>
    have hnot : ¬pageFromPool s.mem pools.kernelPool page = true :=
      fun h ↦ hgeo.apart _ (hkernel.mp h) hpage
    exact (if_neg hnot).trans (if_pos (huser.mpr hpage))

/-- `palloc_free_multiple` takes pages back. -/
theorem free_spec (hgeo : Geometry pools area usable) (hinv : Inv area usable s) {pages : ℕ}
    (hlive : (pages, cnt) ∈ s.live) : ∃ mem, pallocFreeMultiple pools s.mem pages cnt = some mem ∧
      Inv area usable ⟨mem, s.live.erase (pages, cnt)⟩ := by
  obtain ⟨user, idx, hpages, hidx⟩ := hinv.place _ hlive
  change pages = (area user).pool.base + PGSIZE * idx at hpages
  change idx + cnt ≤ (area user).count at hidx
  subst hpages
  set pages := (area user).pool.base + PGSIZE * idx with hpages
  have hpgNo : pgNo pages = (area user).first + idx := hgeo.pgNo_page user idx
  have hperm : (s.live.map pagesOf).Perm
      (((area user).first + idx, cnt) :: (s.live.erase (pages, cnt)).map pagesOf) := by
    have hperm := (List.perm_cons_erase hlive).map pagesOf
    rwa [List.map_cons, pagesOf, hpgNo] at hperm
  have hledger := hinv.ledger.perm hperm
  have hplace : ∀ r ∈ s.live.erase (pages, cnt), ∃ user idx,
      r.1 = (area user).pool.base + PGSIZE * idx ∧ idx + r.2 ≤ (area user).count :=
    fun r hr ↦ hinv.place r (List.mem_of_mem_erase hr)
  have hfree : ∀ x, Free usable ((s.live.erase (pages, cnt)).map pagesOf) x ↔
      Free usable (s.live.map pagesOf) x ∨ Covers ((area user).first + idx, cnt) x := by
    intro x
    rw [hledger.free_tail, free_perm hperm]
  have haligned : pgOfs pages = 0 := by
    rw [hpages, (hgeo.valid user).base_eq]
    simp only [pgOfs, PGSIZE]
    omega
  by_cases hcnt : cnt = 0
  · subst hcnt
    refine ⟨s.mem, ?_, ⟨fun user' ↦ ?_, hledger.tail, hplace⟩⟩
    · simp only [pallocFreeMultiple, haligned, ne_eq, not_true_eq_false, if_false, or_true, if_true,
        Option.pure_def]
    · refine (hinv.pools user').congr fun x _ ↦ (hfree x).trans (or_iff_left ?_)
      rintro ⟨hle, hlt⟩
      omega
  have hpos : pages ≠ 0 := by
    have hpos := (hgeo.valid user).pos
    omega
  have hhas : (area user).Has (pgNo pages) := by
    rw [hpgNo]
    exact ⟨by omega, by omega⟩
  have hpool := poolOf_eq hgeo hinv hhas
  have hcovered : ∀ x, Covers ((area user).first + idx, cnt) x → usable x :=
    fun x hx ↦ hledger.usable x ((covered_cons ..).mpr (Or.inl hx))
  have hpools₁ : ∀ user', PoolOk (s.mem.fill pages (PGSIZE * cnt) 0xcccccccccccccccc) (area user')
      (Free usable (s.live.map pagesOf)) := fun user' ↦
    (hinv.pools user').frame fun a ha ↦ hgeo.fill_same hcovered s.mem _ ha
  have hall := (hpools₁ user).all hidx fun x hx hfree ↦
    hfree.2 ((covered_perm hperm x).mpr ((covered_cons ..).mpr (Or.inl hx)))
  obtain ⟨mem', hclear, hpool', hsame⟩ := (hpools₁ user).clear hidx
  refine ⟨mem', ?_, ⟨fun user' ↦ ?_, hledger.tail, hplace⟩⟩
  · have hsub : pgNo pages - pgNo (pools.pool user).base = idx := by
      rw [hpgNo, Area.first, hgeo.pool]
      omega
    rw [hgeo.pool] at hall hclear
    simp only [pallocFreeMultiple, haligned, ne_eq, not_true_eq_false, if_false, hpos, hcnt, or_self,
      hpool, hsub, hall, hclear, Option.bind_eq_bind, Option.bind_some, if_true]
  · by_cases huser : user' = user
    · subst huser
      exact hpool'.congr fun x _ ↦ hfree x
    · refine ((hpools₁ user').frame fun a ha ↦ hsame a fun ha' ↦ ?_).congr fun x hx ↦ ?_
      · exact huser (hgeo.stores_unique ha ha')
      · rw [hfree]
        exact or_iff_left fun hx' ↦ huser (hgeo.has_unique hx (has_of_covers hidx hx'))

/-- Every step keeps the pools in order. -/
theorem inv_step (hgeo : Geometry pools area usable) (hdistinct : Distinct area usable)
    {s s' : State} {call : Call} (hinv : Inv area usable s) (hstep : Step pools s call s') : Inv area usable s' := by
  cases hstep with
  | @get flags pageCnt pages mem hget =>
    by_cases hrun : ∃ idx, IsFreeRun (area flags.user) (Free usable (s.live.map pagesOf)) pageCnt idx
    · obtain ⟨pages', mem', hpos, hget', hinv'⟩ := get_found hgeo hdistinct hinv flags hrun
      obtain ⟨rfl, rfl⟩ := Prod.mk.inj (Option.some.inj (hget.symm.trans hget'))
      rwa [if_neg hpos]
    · have hget' := get_none hgeo hdistinct hinv flags hrun
      rw [hget] at hget'
      cases hassert : flags.assert
      · rw [hassert] at hget'
        obtain ⟨rfl, rfl⟩ := Prod.mk.inj (Option.some.inj hget')
        exact hinv
      · rw [hassert] at hget'
        exact absurd hget' (Option.some_ne_none _)
  | free hlive hfree =>
    obtain ⟨mem', hfree', hinv'⟩ := free_spec hgeo hinv hlive
    obtain rfl := Option.some.inj (hfree.symm.trans hfree')
    exact hinv'
  | @store a w haligned hlive =>
    have husable := hinv.ledger.usable _ hlive
    refine ⟨fun user ↦ (hinv.pools user).frame fun b hb ↦ Memory.write_of_ne _ ?_ _, hinv.ledger,
      hinv.place⟩
    rintro rfl
    exact hgeo.usable _ husable user b hb rfl

end Jungle.Pages
