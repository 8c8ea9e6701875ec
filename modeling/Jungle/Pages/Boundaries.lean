import Jungle.Pages.Populate
import Jungle.Pages.Safety

/-!
# Where the kernel pool ends

The kernel pool has the first pages of the memory map, and the user pool the others. The first loop of
`populate_pools` gets through exactly if the pages of the kernel end where a region ends or in the last
region (`walk_spec`, `walk_none`).
-/

set_option autoImplicit false
set_option relaxedAutoImplicit false

namespace Jungle.Pages

open Jungle.Lib Jungle.Bitmap

/-- A region has whole pages, one at least, and is in the kernel's view of physical memory. -/
structure Region.Ok (r : Region) : Prop where
  start : r.start % PGSIZE = 0
  size : r.size % PGSIZE = 0
  pos : 0 < r.size
  low : KERN_BASE ≤ r.start
  high : r.finish ≤ KERN_BASE + 2 ^ 52

/-- There is a region, and the regions are in order and apart. -/
structure ValidMap (rs : List Region) : Prop where
  ne : rs ≠ []
  ok : ∀ r ∈ rs, r.Ok
  ascending : rs.Pairwise fun r r' ↦ r.finish ≤ r'.start

/-- The pages of all regions. -/
def pageCount : List Region → ℕ
  | [] => 0
  | r :: rs => r.pages + pageCount rs

/-- The end of the last region, or what it was before. -/
def lastEnd : ℕ → List Region → ℕ
  | finish, [] => finish
  | _, r :: rs => lastEnd r.finish rs

/-- The address at which the first `k` pages end. -/
def boundary : List Region → ℕ → ℕ
  | [], _ => 0
  | r :: rs, k => if k ≤ r.pages then r.start + k * PGSIZE else boundary rs (k - r.pages)

/-- The address of the page after the first `k` pages. -/
def pageAddr : List Region → ℕ → ℕ
  | [], _ => 0
  | r :: rs, k => if k < r.pages then r.start + k * PGSIZE else pageAddr rs (k - r.pages)

/-- The first `k` pages end where a region ends, or in the last region. -/
def BoundaryOk : List Region → ℕ → Prop
  | [], _ => True
  | [_], _ => True
  | r :: rs, k => k = r.pages ∨ r.pages < k ∧ BoundaryOk rs (k - r.pages)

variable {rs : List Region} {r : Region} {w : Walk} {user k : ℕ}

theorem Region.Ok.pages_pos (h : r.Ok) : 0 < r.pages := by
  have hsize := h.size
  have hpos := h.pos
  simp only [Region.pages, PGSIZE] at hsize ⊢
  omega

theorem Region.Ok.size_eq (h : r.Ok) : r.size = r.pages * PGSIZE := by
  have hsize := h.size
  simp only [Region.pages, PGSIZE] at hsize ⊢
  omega

theorem Region.Ok.finish_eq (h : r.Ok) : r.finish = r.start + r.pages * PGSIZE := by
  rw [Region.finish, h.size_eq]

theorem ValidMap.tail (h : ValidMap (r :: rs)) (hrs : rs ≠ []) : ValidMap rs where
  ne := hrs
  ok r hr := h.ok r (List.mem_cons_of_mem _ hr)
  ascending := (List.pairwise_cons.mp h.ascending).2

theorem ValidMap.head (h : ValidMap (r :: rs)) : r.Ok := h.ok r List.mem_cons_self

theorem pageCount_pos (h : ValidMap rs) : 0 < pageCount rs := by
  obtain ⟨r, rest, rfl⟩ := List.exists_cons_of_ne_nil h.ne
  exact Nat.lt_of_lt_of_le h.head.pages_pos (Nat.le_add_right ..)

/-! ### The layout -/

theorem lastEnd_mod (h : ∀ r ∈ rs, r.Ok) {a : ℕ} (ha : a % PGSIZE = 0) :
    lastEnd a rs % PGSIZE = 0 := by
  induction rs generalizing a with
  | nil => exact ha
  | cons r rs ih =>
    refine ih (fun r hr ↦ h r (List.mem_cons_of_mem _ hr)) ?_
    have hr := h r List.mem_cons_self
    have hstart := hr.start
    have hsize := hr.size
    simp only [Region.finish, PGSIZE] at hstart hsize ⊢
    omega

theorem lastEnd_congr (h : rs ≠ []) (a b : ℕ) : lastEnd a rs = lastEnd b rs := by
  cases rs with
  | nil => exact absurd rfl h
  | cons r rs => rfl

/-- The last region ends where the regions end. -/
theorem exists_lastEnd (h : rs ≠ []) (a : ℕ) : ∃ r ∈ rs, r.finish = lastEnd a rs := by
  induction rs generalizing a with
  | nil => exact absurd rfl h
  | cons r rs ih =>
    by_cases hrs : rs = []
    · subst hrs
      exact ⟨r, List.mem_cons_self, rfl⟩
    · obtain ⟨r', hr', heq⟩ := ih hrs r.finish
      exact ⟨r', List.mem_cons_of_mem _ hr', heq⟩

theorem Region.Ok.lt (h : r.Ok) : r.start < r.finish := Nat.lt_add_of_pos_right h.pos

/-- The regions end behind each region. -/
theorem ValidMap.finish_le (h : ValidMap rs) (a : ℕ) : ∀ r ∈ rs, r.finish ≤ lastEnd a rs := by
  induction rs generalizing a with
  | nil => exact absurd rfl h.ne
  | cons r rs ih =>
    by_cases hrs : rs = []
    · subst hrs
      exact fun r' hr' ↦ Nat.le_of_eq (congrArg Region.finish (List.mem_singleton.mp hr'))
    · have htail := h.tail hrs
      refine List.forall_mem_cons.mpr ⟨?_, ih htail r.finish⟩
      obtain ⟨r', hr', heq⟩ := exists_lastEnd hrs r.finish
      have hle := (List.pairwise_cons.mp h.ascending).1 r' hr'
      have hlt := (htail.ok r' hr').lt
      rw [lastEnd, ← heq]
      omega

/-- The start of the first region. -/
def startOf : List Region → ℕ
  | [] => 0
  | r :: _ => r.start

theorem ValidMap.start_le (h : ValidMap rs) : ∀ r ∈ rs, startOf rs ≤ r.start := by
  cases rs with
  | nil => exact absurd rfl h.ne
  | cons r rs =>
    refine List.forall_mem_cons.mpr ⟨Nat.le_refl _, fun r' hr' ↦ ?_⟩
    exact Nat.le_trans (Nat.le_of_lt h.head.lt) ((List.pairwise_cons.mp h.ascending).1 r' hr')

theorem ValidMap.finish_le_startOf (h : ValidMap (r :: rs)) (hrs : rs ≠ []) :
    r.finish ≤ startOf rs := by
  obtain ⟨r', rest, rfl⟩ := List.exists_cons_of_ne_nil hrs
  exact (List.pairwise_cons.mp h.ascending).1 r' List.mem_cons_self

/-- The page after no pages is the first one. -/
theorem pageAddr_zero (h : ValidMap rs) : pageAddr rs 0 = startOf rs := by
  cases rs with
  | nil => rfl
  | cons r rs => rw [pageAddr, if_pos h.head.pages_pos, Nat.zero_mul, Nat.add_zero, startOf]

theorem mul_pgsize_mod {a : ℕ} (ha : a % PGSIZE = 0) (k : ℕ) : (a + k * PGSIZE) % PGSIZE = 0 := by
  rw [Nat.add_mul_mod_self_right, ha]

/-- The boundary is at a page, behind the start and not behind the end. -/
theorem boundary_range (h : ValidMap rs) (hpos : 0 < k) (hk : k ≤ pageCount rs) (a : ℕ) :
    boundary rs k % PGSIZE = 0 ∧ startOf rs < boundary rs k ∧ boundary rs k ≤ lastEnd a rs := by
  induction rs generalizing k a with
  | nil => exact absurd rfl h.ne
  | cons r rs ih =>
    have hfinish := h.head.finish_eq
    rw [pageCount] at hk
    by_cases hle : k ≤ r.pages
    · have hend := h.finish_le a r List.mem_cons_self
      rw [boundary, if_pos hle, startOf]
      have hmul := Nat.mul_le_mul_right PGSIZE hle
      have hpage := Nat.mul_pos hpos (by decide : 0 < PGSIZE)
      exact ⟨mul_pgsize_mod h.head.start k, by omega, by omega⟩
    · have hrs : rs ≠ [] := by
        rintro rfl
        rw [pageCount] at hk
        omega
      obtain ⟨hmod, hstart, hend⟩ := ih (h.tail hrs) (by omega) (by omega : k - r.pages ≤ _) r.finish
      have hfirst := h.finish_le_startOf hrs
      have hlt := h.head.lt
      rw [boundary, if_neg hle]
      exact ⟨hmod, by rw [startOf]; omega, hend⟩

/-- The page behind the boundary is not before it and is before the end. -/
theorem pageAddr_range (h : ValidMap rs) (hk : k < pageCount rs) (a : ℕ) :
    pageAddr rs k % PGSIZE = 0 ∧ startOf rs ≤ pageAddr rs k ∧ pageAddr rs k < lastEnd a rs ∧
      (0 < k → boundary rs k ≤ pageAddr rs k) := by
  induction rs generalizing k a with
  | nil => exact absurd rfl h.ne
  | cons r rs ih =>
    have hfinish := h.head.finish_eq
    rw [pageCount] at hk
    by_cases hlt : k < r.pages
    · have hend := h.finish_le a r List.mem_cons_self
      have hmul : k * PGSIZE < r.pages * PGSIZE := Nat.mul_lt_mul_of_pos_right hlt (by decide)
      rw [pageAddr, if_pos hlt, boundary, if_pos (by omega), startOf]
      exact ⟨mul_pgsize_mod h.head.start k, by omega, by omega, fun _ ↦ Nat.le_refl _⟩
    · have hrs : rs ≠ [] := by
        rintro rfl
        rw [pageCount] at hk
        omega
      obtain ⟨hmod, hstart, hend, hle⟩ := ih (h.tail hrs) (by omega : k - r.pages < _) r.finish
      have hfirst := h.finish_le_startOf hrs
      have hlt' := h.head.lt
      rw [pageAddr, if_neg hlt]
      refine ⟨hmod, by rw [startOf]; omega, hend, fun _ ↦ ?_⟩
      by_cases heq : k = r.pages
      · have hmul : k * PGSIZE = r.pages * PGSIZE := congrArg (· * PGSIZE) heq
        rw [boundary, if_pos (by omega)]
        omega
      · rw [boundary, if_neg (by omega)]
        exact hle (by omega)

/-- Every region is before the boundary or behind it, unless this is inside the last region. -/
theorem region_cases (h : ValidMap rs) (hpos : 0 < k) (hk : k ≤ pageCount rs)
    (hok : BoundaryOk rs k) : ∀ r ∈ rs, r.finish ≤ boundary rs k ∨
      k < pageCount rs ∧ (pageAddr rs k ≤ r.start ∨ pageAddr rs k = boundary rs k) := by
  induction rs generalizing k with
  | nil => exact absurd rfl h.ne
  | cons r rs ih =>
    have hfinish := h.head.finish_eq
    rw [pageCount] at hk
    by_cases hrs : rs = []
    · subst hrs
      intro r' hr'
      obtain rfl := List.mem_singleton.mp hr'
      simp only [pageCount, Nat.add_zero] at hk ⊢
      rw [boundary, if_pos hk, pageAddr]
      by_cases hlt : k < r'.pages
      · rw [if_pos hlt]
        exact Or.inr ⟨hlt, Or.inr rfl⟩
      · obtain rfl : k = r'.pages := by omega
        exact Or.inl (Nat.le_of_eq hfinish)
    · have htail := h.tail hrs
      have hcount := pageCount_pos htail
      have hfirst := h.finish_le_startOf hrs
      have hok' : k = r.pages ∨ r.pages < k ∧ BoundaryOk rs (k - r.pages) := by
        obtain ⟨r', rest, rfl⟩ := List.exists_cons_of_ne_nil hrs
        exact hok
      rcases hok' with rfl | ⟨hlt, hok'⟩
      · rw [boundary, if_pos (Nat.le_refl _), pageAddr, if_neg (Nat.lt_irrefl _), Nat.sub_self,
          pageAddr_zero htail, pageCount]
        refine List.forall_mem_cons.mpr ⟨Or.inl (Nat.le_of_eq hfinish), fun r' hr' ↦ ?_⟩
        exact Or.inr ⟨by omega, Or.inl (htail.start_le r' hr')⟩
      · have hrange := boundary_range htail (by omega) (by omega : k - r.pages ≤ _) 0
        have hih := ih htail (by omega) (by omega : k - r.pages ≤ _) hok'
        rw [boundary, if_neg (by omega), pageAddr, if_neg (by omega), pageCount]
        refine List.forall_mem_cons.mpr ⟨Or.inl (by omega), fun r' hr' ↦ ?_⟩
        exact (hih r' hr').imp_right fun hbehind ↦ ⟨by omega, hbehind.2⟩

/-- A region ends at the boundary, unless the page behind this is next to it. -/
theorem exists_finish_boundary (h : ValidMap rs) (hpos : 0 < k) (hk : k < pageCount rs)
    (hne : boundary rs k ≠ pageAddr rs k) : ∃ r ∈ rs, r.finish = boundary rs k := by
  induction rs generalizing k with
  | nil => exact absurd rfl h.ne
  | cons r rs ih =>
    have hfinish := h.head.finish_eq
    rw [pageCount] at hk
    rcases Nat.lt_trichotomy k r.pages with hlt | rfl | hlt
    · rw [boundary, if_pos (by omega), pageAddr, if_pos hlt] at hne
      exact absurd rfl hne
    · rw [boundary, if_pos (Nat.le_refl _)]
      exact ⟨r, List.mem_cons_self, hfinish⟩
    · have hrs : rs ≠ [] := by
        rintro rfl
        rw [pageCount] at hk
        omega
      rw [boundary, if_neg (by omega), pageAddr, if_neg (by omega)] at hne
      obtain ⟨r', hr', heq⟩ := ih (h.tail hrs) (by omega) (by omega) hne
      rw [boundary, if_neg (by omega)]
      exact ⟨r', List.mem_cons_of_mem _ hr', heq⟩

/-! ### The first loop -/

theorem poolStep_running (userPages : ℕ) (h : w.state ≠ .kernStart) (r : Region) :
    poolStep userPages w r = poolSwitch userPages { w with finish := r.finish } r := if_neg h

/-- The pages behind the kernel pool are counted down as long as some are left. -/
theorem walk_user (hstate : w.state = .user) (h : pageCount rs < w.rem) :
    rs.foldlM (poolStep user) w =
      some { w with rem := w.rem - pageCount rs, finish := lastEnd w.finish rs } := by
  induction rs generalizing w with
  | nil => rfl
  | cons r rs ih =>
    rw [pageCount] at h
    have hstep : poolStep user w r =
        some { w with rem := w.rem - r.pages, finish := r.finish } := by
      rw [poolStep_running user (by rw [hstate]; decide), poolSwitch]
      simp only [hstate]
      rw [if_pos (by omega)]
    have hrest := ih (w := { w with rem := w.rem - r.pages, finish := r.finish }) hstate
      (by dsimp only; omega)
    rw [List.foldlM_cons, hstep, Option.bind_eq_bind, Option.bind_some, hrest]
    simp only [pageCount, lastEnd, Nat.sub_sub]

/-- Where they come to the number of pages left, the assertion compares it with a number of bytes. -/
theorem walk_user_none (hmap : ValidMap rs) (hstate : w.state = .user) (h : w.rem = pageCount rs) :
    rs.foldlM (poolStep user) w = none := by
  induction rs generalizing w with
  | nil => exact absurd rfl hmap.ne
  | cons r rs ih =>
    have hpos := hmap.head.pages_pos
    have hsize := hmap.head.size_eq
    rw [pageCount] at h
    rw [List.foldlM_cons, poolStep_running user (by rw [hstate]; decide), poolSwitch]
    simp only [hstate]
    by_cases hrs : rs = []
    · subst hrs
      rw [pageCount] at h
      rw [if_neg (by omega), if_neg (by simp only [PGSIZE] at hsize; omega)]
      rfl
    · have hrest := pageCount_pos (hmap.tail hrs)
      rw [if_pos (by omega), Option.bind_eq_bind, Option.bind_some]
      exact ih (hmap.tail hrs) rfl (by dsimp only; omega)

/-- The number of pages that are left for the user pool behind the region with the boundary. -/
theorem rem_wraps {userPages pages rem : ℕ} (hle : pages ≤ userPages + rem)
    (hpages : pages ≤ 2 ^ 64) (hlt : userPages + rem - pages < 2 ^ 64) :
    (userPages + (2 ^ 64 - pages) + rem) % 2 ^ 64 = userPages + rem - pages := by
  omega

/-- Before the kernel pool is made, the step of the machine at the region with the boundary. -/
theorem poolStep_boundary (hstate : w.state = .kern) (hle : w.rem ≤ r.pages)
    {pool : Pool} {freeStart : ℕ} {mem : Memory}
    (hinit : initPool w.mem w.freeStart w.regionStart (r.start + w.rem * PGSIZE) =
      some (pool, freeStart, mem)) :
    poolStep user w r = some (if w.rem = r.pages then
      ⟨.userStart, user, w.regionStart, r.finish, pool, freeStart, mem⟩
    else ⟨.user, (user + (2 ^ 64 - r.pages) + w.rem) % 2 ^ 64, r.start + w.rem * PGSIZE, r.finish,
      pool, freeStart, mem⟩) := by
  rw [poolStep_running user (by rw [hstate]; decide), poolSwitch]
  simp only [hstate]
  rw [if_neg (Nat.not_lt_of_le hle), hinit, Option.bind_eq_bind, Option.bind_some]
  dsimp only
  split_ifs <;> rfl

theorem poolStep_kern (hstate : w.state = .kern) (hlt : r.pages < w.rem) :
    poolStep user w r = some { w with rem := w.rem - r.pages, finish := r.finish } := by
  rw [poolStep_running user (by rw [hstate]; decide), poolSwitch]
  simp only [hstate]
  rw [if_pos hlt]

/-- The pages of a map fit in 64 bits. -/
theorem ValidMap.pageCount_le (h : ValidMap rs) : ∀ {a : ℕ}, (∀ r ∈ rs, a ≤ r.start) →
    a + pageCount rs * PGSIZE ≤ KERN_BASE + 2 ^ 52 := by
  induction rs with
  | nil => exact absurd rfl h.ne
  | cons r rs ih =>
    intro a hlow
    have hstart := hlow r List.mem_cons_self
    have hfinish := h.head.finish_eq
    by_cases hrs : rs = []
    · subst hrs
      have hhigh := h.head.high
      simp only [pageCount, PGSIZE] at hfinish ⊢
      omega
    · have hrest := ih (h.tail hrs) (a := r.finish) (List.pairwise_cons.mp h.ascending).1
      simp only [pageCount, PGSIZE] at hfinish hrest ⊢
      omega

/-- What the first loop leaves: the user pool starts behind the kernel pool, if it has pages. -/
theorem walk_spec (hmap : ValidMap rs) (hstate : w.state = .kern) (hpos : 0 < w.rem)
    (hrem : w.rem + user = pageCount rs) (hok : BoundaryOk rs w.rem)
    {pool : Pool} {freeStart : ℕ} {mem : Memory}
    (hinit : initPool w.mem w.freeStart w.regionStart (boundary rs w.rem) =
      some (pool, freeStart, mem)) :
    ∃ state rem, rs.foldlM (poolStep user) w = some ⟨state, rem,
      if 0 < user then pageAddr rs w.rem else w.regionStart, lastEnd w.finish rs, pool, freeStart,
      mem⟩ := by
  induction rs generalizing w with
  | nil => exact absurd rfl hmap.ne
  | cons r rs ih =>
    rw [pageCount] at hrem
    rw [List.foldlM_cons]
    by_cases hlt : r.pages < w.rem
    · have hrs : rs ≠ [] := by
        rintro rfl
        rw [pageCount] at hrem
        omega
      have hok' : BoundaryOk rs (w.rem - r.pages) := by
        obtain ⟨r', rest, rfl⟩ := List.exists_cons_of_ne_nil hrs
        exact (hok.resolve_left (by omega)).2
      rw [boundary, if_neg (by omega)] at hinit
      rw [poolStep_kern hstate hlt, Option.bind_eq_bind, Option.bind_some]
      obtain ⟨state, rem, hwalk⟩ := ih (w := { w with rem := w.rem - r.pages, finish := r.finish })
        (hmap.tail hrs) hstate (by dsimp only; omega) (by dsimp only; omega) hok' hinit
      refine ⟨state, rem, hwalk.trans ?_⟩
      rw [lastEnd, pageAddr, if_neg (by omega : ¬w.rem < r.pages)]
    · rw [boundary, if_pos (by omega)] at hinit
      rw [poolStep_boundary hstate (by omega) hinit, Option.bind_eq_bind, Option.bind_some]
      by_cases heq : w.rem = r.pages
      · rw [if_pos heq]
        cases rs with
        | nil =>
          rw [pageCount] at hrem
          obtain rfl : user = 0 := by omega
          exact ⟨.userStart, 0, rfl⟩
        | cons r' rest =>
          have hpos' := (hmap.tail (List.cons_ne_nil r' rest)).head.pages_pos
          rw [pageCount] at hrem
          have hstart : poolStep user
              ⟨.userStart, user, w.regionStart, r.finish, pool, freeStart, mem⟩ r' =
                some ⟨.user, user, r'.start, r'.finish, pool, freeStart, mem⟩ := rfl
          rw [List.foldlM_cons, hstart, Option.bind_eq_bind, Option.bind_some,
            walk_user rfl (by dsimp only; omega), if_pos (by omega), pageAddr,
            if_neg (by omega), pageAddr, if_pos (by omega), heq, Nat.sub_self, Nat.zero_mul,
            Nat.add_zero]
          exact ⟨_, _, rfl⟩
      · have hrs : rs = [] := by
          cases rs with
          | nil => rfl
          | cons r' rest => exact (hok.elim heq fun hok ↦ hlt hok.1).elim
        subst hrs
        rw [pageCount] at hrem
        rw [if_neg heq, if_pos (by omega), pageAddr, if_pos (by omega)]
        exact ⟨_, _, rfl⟩

/-- The first loop fails if the boundary is inside a region with others behind it. -/
theorem walk_none (hmap : ValidMap rs) (hstate : w.state = .kern) (hpos : 0 < w.rem)
    (hrem : w.rem + user = pageCount rs) (hok : ¬BoundaryOk rs w.rem) :
    rs.foldlM (poolStep user) w = none := by
  induction rs generalizing w with
  | nil => exact absurd rfl hmap.ne
  | cons r rs ih =>
    rw [pageCount] at hrem
    have hrs : rs ≠ [] := by
      rintro rfl
      exact hok trivial
    have hok' : ¬(w.rem = r.pages ∨ r.pages < w.rem ∧ BoundaryOk rs (w.rem - r.pages)) := by
      obtain ⟨r', rest, rfl⟩ := List.exists_cons_of_ne_nil hrs
      exact hok
    rw [List.foldlM_cons]
    by_cases hlt : r.pages < w.rem
    · rw [poolStep_kern hstate hlt, Option.bind_eq_bind, Option.bind_some]
      exact ih (hmap.tail hrs) hstate (by dsimp only; omega) (by dsimp only; omega)
        fun h ↦ hok' (Or.inr ⟨hlt, h⟩)
    · cases hinit : initPool w.mem w.freeStart w.regionStart (r.start + w.rem * PGSIZE) with
      | none =>
        rw [poolStep_running user (by rw [hstate]; decide), poolSwitch]
        simp only [hstate]
        rw [if_neg hlt, hinit]
        rfl
      | some result =>
        obtain ⟨pool, freeStart, mem⟩ := result
        have hbound := hmap.pageCount_le (a := 0) fun _ _ ↦ Nat.zero_le _
        rw [pageCount] at hbound
        rw [poolStep_boundary hstate (by omega) hinit, Option.bind_eq_bind, Option.bind_some,
          if_neg fun heq ↦ hok' (Or.inl heq)]
        refine walk_user_none (hmap.tail hrs) rfl ?_
        simp only [KERN_BASE, PGSIZE] at hbound
        change (user + (2 ^ 64 - r.pages) + w.rem) % 2 ^ 64 = pageCount rs
        rw [rem_wraps (by omega) (by omega) (by omega)]
        omega

end Jungle.Pages
