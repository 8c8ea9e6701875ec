import Jungle.FileSys.Mounting

/-!
# Formatting a disk

`filesys_init` with `format` makes a sound volume of any disk with enough sectors, whatever was on it: the root
directory is empty, and the sectors of the two inodes are in use and no others.
-/

set_option autoImplicit false
set_option relaxedAutoImplicit false

namespace Jungle.FileSys

open Jungle.Lib Jungle.Bitmap

variable {map root : InodeDisk} {s s' : State} {f : ℕ → Bool} {n p x : ℕ}

/-! ### Sizes -/

theorem bytesToSectors_eq {length : ℤ} (hmin : 0 ≤ length) (hmax : length + 511 ≤ intMax) :
    bytesToSectors length = (length.toNat + 511) / 512 := by
  unfold intMax at hmax
  unfold bytesToSectors DISK_SECTOR_SIZE
  have hint : int32 (length + ((512 : ℕ) : ℤ) - 1) = length + 511 := by
    rw [int32_of_mem (by unfold intMin; omega) (by unfold intMax; omega)]
    omega
  rw [hint, Int.tdiv_eq_ediv_of_nonneg (by omega)]
  omega

/-- The sectors that the file of the free map needs. -/
theorem mapSectors_eq (hn : n ≤ 2 ^ 28) :
    int32 (byteCnt n) = byteCnt n ∧ bytesToSectors (byteCnt n) = (byteCnt n + 511) / 512 := by
  have hle : byteCnt n ≤ 2 ^ 26 := by
    unfold byteCnt elemCnt ELEM_BITS
    omega
  refine ⟨int32_of_mem (by unfold intMin; omega) (by unfold intMax; omega), ?_⟩
  exact bytesToSectors_eq (by omega) (by unfold intMax; omega)

/-! ### The inode of the free map -/

/-- `inode_create` before there is a file of the free map. -/
theorem inodeCreate_bare (hbits : IsBitmap s.mem s.freeMap s.capacity f) (hsmall : s.capacity ≤ 2 ^ 28)
    (hnone : s.freeMapFile = none) (hx : x < s.capacity) (hused : f x = true) {length : ℤ} (hmin : 0 ≤ length)
    (hmax : length ≤ intMax) : ∃ ok s', inodeCreate s x length = some (ok, s') ∧
      (ok = true → ∃ start mem disk, s' = s.mapped mem disk 1 ∧
        IsRun f s.capacity (bytesToSectors length) false start ∧
        (∀ j < start, ¬IsRun f s.capacity (bytesToSectors length) false j) ∧
        IsBitmap mem s.freeMap s.capacity (setRange f start (bytesToSectors length) true) ∧
        diskInode disk x = ⟨start, length, INODE_MAGIC⟩) ∧
      (s.mallocs 0 = true → (∃ i, IsRun f s.capacity (bytesToSectors length) false i) → ok = true) := by
  by_cases hmalloc : s.mallocs 0 = true
  swap
  · refine ⟨false, s.transfer s.disk 1, ?_, fun hok ↦ absurd hok Bool.false_ne_true, fun h ↦ absurd h hmalloc⟩
    rw [inodeCreate, if_pos hmin, malloc_eq]
    dsimp only
    rw [if_neg hmalloc]
    rfl
  obtain ⟨i, mem, hscan, hscans, hflips, -⟩ := bitmapScanAndFlip_spec hbits (Nat.zero_le s.capacity)
    (bytesToSectors length) false
  have hallocate : freeMapAllocate (s.mapped s.mem s.disk 1) (bytesToSectors length) =
      if i = BITMAP_ERROR then some (none, s.mapped mem s.disk 1) else some (some i, s.mapped mem s.disk 1) := by
    change (bitmapScanAndFlip s.mem s.freeMap 0 (bytesToSectors length) false).bind _ = _
    rw [hscan, Option.bind_some]
    dsimp only
    split_ifs with hi hfile
    · rfl
    · rfl
    · exact absurd hnone hfile
  by_cases hi : i = BITMAP_ERROR
  · rw [if_pos hi] at hallocate
    refine ⟨false, s.mapped mem s.disk 1, ?_, fun hok ↦ absurd hok Bool.false_ne_true, fun _ hfree ↦ ?_⟩
    · rw [inodeCreate, if_pos hmin, malloc_eq]
      dsimp only
      rw [if_pos hmalloc, hallocate]
      rfl
    · obtain ⟨j, hrun⟩ := hfree
      rcases hscans with ⟨-, hrun', -⟩ | ⟨-, hnorun⟩
      · have hle := hrun'.1
        rw [hi] at hle
        unfold BITMAP_ERROR SIZE_MAX at hle
        omega
      · exact absurd hrun (hnorun j (Nat.zero_le j))
  · rw [if_neg hi] at hallocate
    obtain ⟨-, hrun, hfirst⟩ := hscans.resolve_right fun h ↦ hi h.1
    have hstart := hrun.1
    let d : InodeDisk := ⟨i, length, INODE_MAGIC⟩
    let disk₁ := s.disk.copy (DISK_SECTOR_SIZE * x) d.toBytes 0 DISK_SECTOR_SIZE
    have honDisk : OnDisk (s.mapped mem s.disk 1) x := ⟨hx, by omega⟩
    obtain ⟨disk₂, hzeros, hsame, -⟩ : ∃ disk₂, writeZeros (s.mapped mem disk₁ 1) i (bytesToSectors length) =
          some ((s.mapped mem disk₁ 1).transfer disk₂ 0) ∧
        (∀ y, ¬Covers (i, bytesToSectors length) y → SameSector disk₁ disk₂ y) ∧
        ∀ y, Covers (i, bytesToSectors length) y → SameSector (fun _ ↦ 0) disk₂ y :=
      writeZeros_spec fun j hj ↦
        ⟨show i + j < s.capacity by omega, show i + j < 2 ^ 28 by omega⟩
    refine ⟨true, s.mapped mem disk₂ 1, ?_, fun _ ↦ ⟨i, mem, disk₂, rfl, hrun,
      fun j hj ↦ hfirst j (Nat.zero_le j) hj, (hflips hi).isBitmap, ?_⟩, fun _ _ ↦ rfl⟩
    · rw [inodeCreate, if_pos hmin, malloc_eq]
      dsimp only
      rw [if_pos hmalloc, hallocate, Option.bind_eq_bind, Option.bind_some]
      dsimp only
      rw [diskWrite_eq honDisk, Option.bind_eq_bind, Option.bind_some, mapped_transfer]
      change (writeZeros (s.mapped mem disk₁ 1) i (bytesToSectors length)).bind _ = _
      rw [hzeros, mapped_transfer]
      rfl
    · have hnot : ¬Covers (i, bytesToSectors length) x := fun hcovers ↦
        Bool.false_ne_true ((hrun.2 x hcovers.1 hcovers.2).symm.trans hused)
      rw [(hsame x hnot).diskInode, diskInode_write]
      exact ofBytes_toBytes (show i < 2 ^ 32 by omega) hmin hmax (show INODE_MAGIC < 2 ^ 32 by decide)

/-- The sectors of the two inodes, and sectors after them. -/
theorem apart_system {start cnt : ℕ} (hstart : 2 ≤ start) :
    [(ROOT_DIR_SECTOR, 1), (FREE_MAP_SECTOR, 1), (start, cnt)].Pairwise Apart := by
  have hfirst : Apart (ROOT_DIR_SECTOR, 1) (FREE_MAP_SECTOR, 1) := fun x ⟨hle, _⟩ ⟨_, hlt⟩ ↦
    Nat.lt_irrefl x (Nat.lt_of_lt_of_le hlt hle)
  have hafter : ∀ x y, y < 2 → Covers (y, 1) x → ¬Covers (start, cnt) x := fun x y hy ⟨_, hlt⟩ ⟨hle, _⟩ ↦ by
    dsimp only at hlt hle
    omega
  refine List.pairwise_cons.mpr ⟨fun r hr ↦ ?_, List.pairwise_cons.mpr ⟨fun r hr ↦ ?_, List.pairwise_singleton ..⟩⟩
  · rcases List.mem_cons.mp hr with rfl | hr
    · exact hfirst
    · obtain rfl := List.mem_singleton.mp hr
      exact fun x ↦ hafter x ROOT_DIR_SECTOR (by decide)
  · obtain rfl := List.mem_singleton.mp hr
    exact fun x ↦ hafter x FREE_MAP_SECTOR (by decide)

/-- The state that `free_map_create` leaves: the file of the free map is open, the sectors in use are that of
the root directory and those of the free map, and the file says so. -/
structure MapCreated (map : InodeDisk) (s s' : State) (p m : ℕ) (f : ℕ → Bool) : Prop where
  opened : MapOpen map s' p m
  sectors : Sectors s' f [(ROOT_DIR_SECTOR, 1)] [(FREE_MAP_SECTOR, map)]
  used : ∀ x < s.capacity, f x = true ↔
    Covered ((ROOT_DIR_SECTOR, 1) :: rangesOf (FREE_MAP_SECTOR, map)) x
  length : map.length = byteCnt s.capacity
  start : map.start = 2
  small : s.capacity ≤ 2 ^ 28
  capacity : s'.capacity = s.capacity
  mallocs : ∃ c, ∀ i, s'.mallocs i = s.mallocs (i + c)

/-- There is a free sector, unless the disk is too small. -/
theorem MapCreated.isRun {m : ℕ} (h : MapCreated map s s' p m f) (hfour : 4 ≤ s.capacity) :
    IsRun f s'.capacity (bytesToSectors (16 * ENTRY_SIZE : ℕ)) false (2 + bytesToSectors map.length) := by
  obtain ⟨-, hsectors⟩ := mapSectors_eq h.small
  rw [← h.length] at hsectors
  have hroom : 2 + bytesToSectors map.length + 1 ≤ s.capacity := by
    unfold byteCnt elemCnt ELEM_BITS at hsectors
    omega
  have hone : bytesToSectors (16 * ENTRY_SIZE : ℕ) = 1 := by decide
  rw [hone, h.capacity]
  refine ⟨hroom, fun x hle hlt ↦ ?_⟩
  by_contra hused
  have hcovered := (h.used x (by omega)).mp (Bool.eq_true_of_not_eq_false hused)
  rw [rangesOf, h.start, covered_cons, covered_cons, covered_cons] at hcovered
  simp only [Covers, covered_nil, or_false] at hcovered
  unfold ROOT_DIR_SECTOR FREE_MAP_SECTOR at hcovered
  omega

theorem MapCreated.four {m start : ℕ} (h : MapCreated map s s' p m f)
    (hrun : IsRun f s'.capacity (bytesToSectors (16 * ENTRY_SIZE : ℕ)) false start) : 4 ≤ s.capacity := by
  have hone : bytesToSectors (16 * ENTRY_SIZE : ℕ) = 1 := by decide
  rw [hone, h.capacity] at hrun
  have hle := hrun.1
  have hfree : ∀ x, Covered ((ROOT_DIR_SECTOR, 1) :: rangesOf (FREE_MAP_SECTOR, map)) x → x ≠ start := by
    rintro x hx rfl
    have hused := (h.used x (by omega)).mpr hx
    exact Bool.false_ne_true ((hrun.2 x (Nat.le_refl x) (Nat.lt_succ_self x)).symm.trans hused)
  have hzero := hfree FREE_MAP_SECTOR ⟨_, List.mem_cons_of_mem _ (self_mem_rangesOf _), covers_self _⟩
  have hroot := hfree ROOT_DIR_SECTOR ⟨_, List.mem_cons_self, covers_self _⟩
  have htwo := hfree 2 ⟨_, List.mem_cons_of_mem _ (data_mem_rangesOf _), h.start.le, ?_⟩
  · unfold FREE_MAP_SECTOR at hzero
    unfold ROOT_DIR_SECTOR at hroot
    omega
  · obtain ⟨-, hsectors⟩ := mapSectors_eq h.small
    rw [← h.length] at hsectors
    unfold byteCnt elemCnt ELEM_BITS at hsectors
    dsimp only
    rw [h.start]
    omega

theorem freeMapCreate_spec (hidle : Idle s) (hnone : s.freeMapFile = none) (hsmall : s.capacity ≤ 2 ^ 28)
    (hcapacity : 1 < s.capacity)
    (hbits : IsBitmap s.mem s.freeMap s.capacity fun x ↦ decide (x ≤ ROOT_DIR_SECTOR)) :
    (∀ s', freeMapCreate s = some s' → ∃ map p m f, MapCreated map s s' p m f) ∧
      ((∀ i, s.mallocs i = true) → 4 ≤ s.capacity → (freeMapCreate s).isSome) := by
  obtain ⟨hint, hsectors⟩ := mapSectors_eq hsmall
  set k := bytesToSectors (byteCnt s.capacity) with hk
  have hpos : 0 < byteCnt s.capacity ∧ byteCnt s.capacity ≤ 2 ^ 26 := by
    unfold byteCnt elemCnt ELEM_BITS
    omega
  have hmapSector : FREE_MAP_SECTOR < s.capacity := Nat.zero_lt_of_lt hcapacity
  obtain ⟨created, s₁, hcreate, hcreates, hroom⟩ := inodeCreate_bare hbits hsmall hnone hmapSector
    (decide_eq_true (by decide)) (show (0 : ℤ) ≤ (byteCnt s.capacity : ℤ) by omega) (by unfold intMax; omega)
  have hsize : bitmapSize s.mem s.freeMap = s.capacity := hbits.size
  rw [← hk] at hcreates hroom
  cases created with
  | false =>
    have hcall : freeMapCreate s = none := by
      rw [freeMapCreate, hsize, hint, hcreate]
      rfl
    refine ⟨fun s' hs' ↦ absurd (hcall.symm.trans hs').symm (Option.some_ne_none s'), fun hall hfour ↦ ?_⟩
    refine absurd (hroom (hall 0) ⟨2, ?_, fun i hle _ ↦ decide_eq_false ?_⟩) Bool.false_ne_true
    · unfold byteCnt elemCnt ELEM_BITS at hsectors
      omega
    · exact Nat.not_le_of_lt (Nat.lt_of_succ_le hle)
  | true =>
    obtain ⟨start, mem, disk, rfl, hrun, hfirst, hset, hstored⟩ := hcreates rfl
    obtain rfl : start = 2 := by
      have hle := hrun.1
      rcases Nat.lt_trichotomy start 2 with hlt | heq | hgt
      · have hclear := of_decide_eq_false (hrun.2 start (Nat.le_refl _) (by omega))
        exact absurd (Nat.lt_succ_iff.mp hlt) hclear
      · exact heq
      · refine absurd ⟨by omega, fun i hge _ ↦ decide_eq_false ?_⟩ (hfirst 2 hgt)
        exact Nat.not_le_of_lt (Nat.lt_of_succ_le hge)
    let map : InodeDisk := ⟨2, byteCnt s.capacity, INODE_MAGIC⟩
    let s₂ : State := s.mapped mem disk 1
    have hopen : openFreeMapFile s₂ = if s₂.mallocs 0 = true ∧ s₂.mallocs 1 = true then
        some (s₂.mapOpened map) else none := by
      have hidle₂ : Idle s₂ := ⟨hidle.inodes, hidle.openInodes, hidle.files⟩
      have hdisk₂ : OnDisk s₂ FREE_MAP_SECTOR := ⟨hmapSector, by decide⟩
      rw [openFreeMapFile_eq hidle₂ hdisk₂, show diskInode s₂.disk FREE_MAP_SECTOR = map from hstored]
    have hmapSectors : bytesToSectors map.length = k := rfl
    have hfits : map.Fits (s₂.mapOpened map) := by
      intro pos hlt
      have hlt' : pos < byteCnt s.capacity := by
        change (pos : ℤ) < (byteCnt s.capacity : ℤ) at hlt
        omega
      have hle := hrun.1
      have hsector : 2 + pos / 512 < s.capacity := by omega
      exact ⟨hsector, show 2 + pos / 512 < 2 ^ 28 by omega⟩
    have hopened := mapOpen_opened s₂ map
    obtain ⟨ok, disk', calls, hwrite, hwrites, hexact⟩ := freeMapWrite_spec (hopened.mapFileIn hfits)
    have hbits₂ : IsBitmap (s₂.mapOpened map).mem s.freeMap s.capacity
        (setRange (fun x ↦ decide (x ≤ ROOT_DIR_SECTOR)) 2 k true) := hset
    rw [show bitmapSize (s₂.mapOpened map).mem (s₂.mapOpened map).freeMap = s.capacity from hbits₂.size]
      at hwrites hexact
    have hcall : freeMapCreate s = if s₂.mallocs 0 = true ∧ s₂.mallocs 1 = true then
        (if ok = true then some ((s₂.mapOpened map).transfer disk' calls) else none) else none := by
      rw [freeMapCreate, hsize, hint, hcreate]
      change (openFreeMapFile s₂).bind _ = _
      rw [hopen]
      split_ifs with hall hok
      · rw [Option.bind_some, hwrite]
        exact if_pos hok
      · rw [Option.bind_some, hwrite]
        exact if_neg hok
      · rfl
    refine ⟨fun s' hs' ↦ ?_, fun hall _ ↦ ?_⟩
    · rw [hcall] at hs'
      split_ifs at hs' with _ hok
      obtain rfl := Option.some.inj hs'
      subst hok
      have hsaved := saved_write hwrites hbits₂
      have hsized : map.length ≤ DISK_SECTOR_SIZE * bytesToSectors map.length := by
        rw [hmapSectors]
        change (byteCnt s.capacity : ℤ) ≤ _
        unfold DISK_SECTOR_SIZE
        omega
      have hle := hrun.1
      have hcovered : ∀ x, Covered ((ROOT_DIR_SECTOR, 1) :: rangesOf (FREE_MAP_SECTOR, map)) x ↔
          x ≤ 1 ∨ 2 ≤ x ∧ x < 2 + k := by
        intro x
        rw [rangesOf, covered_cons, covered_cons, covered_cons]
        simp only [Covers, covered_nil, or_false, hmapSectors]
        change (1 ≤ x ∧ x < 2) ∨ (0 ≤ x ∧ x < 1) ∨ 2 ≤ x ∧ x < 2 + k ↔ _
        omega
      have husedIff : ∀ x, setRange (fun x ↦ decide (x ≤ ROOT_DIR_SECTOR)) 2 k true x = true ↔
          x ≤ 1 ∨ 2 ≤ x ∧ x < 2 + k := by
        intro x
        unfold setRange ROOT_DIR_SECTOR
        split_ifs with hx
        · exact iff_of_true rfl (Or.inr hx)
        · rw [decide_eq_true_iff]
          exact (or_iff_left hx).symm
      refine ⟨map, _, _, _, hopened.mapped mem disk' calls, ⟨hbits₂, hsmall, ?_, ?_, ?_, ?_⟩, fun x _ ↦ ?_, rfl,
        rfl, hsmall, rfl, 1 + (2 + calls), fun i ↦ ?_⟩
      · refine ⟨fun x hx ↦ ?_, ?_⟩
        · have hx' := (hcovered x).mp hx
          exact ⟨show x < s.capacity by omega, (husedIff x).mpr hx'⟩
        · exact apart_system (Nat.le_refl 2)
      · intro o ho
        obtain rfl := List.mem_singleton.mp ho
        have hnot : ¬Covers (map.start, bytesToSectors map.length) FREE_MAP_SECTOR := fun hcovers ↦
          absurd (show 2 ≤ 0 from hcovers.1) (by decide)
        exact (hwrites.writesTo.sector hsized hnot).diskInode.trans hstored
      · intro o ho
        obtain rfl := List.mem_singleton.mp ho
        exact ⟨show (0 : ℤ) ≤ (byteCnt s.capacity : ℤ) by omega, hsized, show 2 ≤ s.capacity by omega⟩
      · intro map' ho
        obtain ⟨-, rfl⟩ := Prod.mk.inj (List.mem_singleton.mp ho)
        exact hsaved.durable
      · rw [husedIff, ← hcovered]
      · exact congrArg s.mallocs (show i + calls + 2 + 1 = i + (1 + (2 + calls)) by omega)
    · have hok : ok = true := (hexact rfl).2.mpr fun i _ ↦ hall _
      rw [hcall, if_pos ⟨hall _, hall _⟩, if_pos hok]
      rfl

/-! ### The root directory -/

/-- A directory with zeros has no entry. -/
theorem entry_of_zeros {disk : Bytes} (hzeros : ∀ pos < root.length.toNat, disk (root.addr pos) = 0) {k : ℕ}
    (hk : k < root.slots) : root.entry disk k = none := by
  have hroom := slot_room hk
  have hlast : root.slot disk k 19 = 0 := hzeros (k * ENTRY_SIZE + 19) (by
    unfold ENTRY_SIZE at *
    omega)
  rw [InodeDisk.entry, entryOf, inUse, hlast]
  rfl

/-- The state in which nothing is open. -/
def State.idle (s : State) : State := { s with inodes := Store.empty, openInodes := [], files := Store.empty }

/-- `free_map_close` closes the file of the free map. -/
theorem MapOpen.close {m : ℕ} (h : MapOpen map s p m) : freeMapClose s = some s.idle := by
  have hfile : s.files m = some ⟨p, 0, false⟩ := (congrFun h.files m).trans (Store.put_self ..)
  have hinode : s.inodes p = some ⟨FREE_MAP_SECTOR, 1, false, 0, map⟩ :=
    (congrFun h.inodes p).trans (Store.put_self ..)
  have hempty : ∀ c c' : Inode, ((Store.empty.put p c).put p c').free p = Store.empty := by
    intro c c'
    funext q
    rw [Store.free_apply, Store.put_apply, Store.put_apply]
    split_ifs <;> rfl
  have hnone : ∀ c : File, (Store.empty.put m c).free m = Store.empty := by
    intro c
    funext q
    rw [Store.free_apply, Store.put_apply]
    split_ifs <;> rfl
  have hclose : freeMapClose s = some { s with
      inodes := (s.inodes.put p ⟨FREE_MAP_SECTOR, 0, false, 0, map⟩).free p
      openInodes := s.openInodes.erase p
      files := s.files.free m } := by
    simp only [freeMapClose, h.mapFile, fileClose, fileAllowWrite, hfile, inodeClose, hinode, Int.sub_self, if_true,
      Bool.false_eq_true, if_false, Option.bind_eq_bind, Option.bind_some, Option.pure_def]
  rw [hclose, h.inodes, h.openInodes, h.files, hempty, hnone, List.erase_cons_head]
  rfl

/-- A disk that `do_format` has formatted. -/
structure Formats (map root : InodeDisk) (s s' : State) (f : ℕ → Bool) : Prop where
  idle : Idle s'
  sectors : Sectors s' f [] [(ROOT_DIR_SECTOR, root), (FREE_MAP_SECTOR, map)]
  saved : Saved map s'.disk s.capacity f
  used : ∀ x < s.capacity, f x = true ↔ Covered (rangesOf (ROOT_DIR_SECTOR, root) ++ rangesOf (FREE_MAP_SECTOR, map)) x
  mapLength : map.length = byteCnt s.capacity
  rootLength : root.length = 16 * ENTRY_SIZE
  entries : ∀ k < root.slots, root.entry s'.disk k = none
  capacity : s'.capacity = s.capacity
  four : 4 ≤ s.capacity
  mallocs : ∃ c, ∀ i, s'.mallocs i = s.mallocs (i + c)

theorem doFormat_spec (hidle : Idle s) (hnone : s.freeMapFile = none) (hsmall : s.capacity ≤ 2 ^ 28)
    (hcapacity : 1 < s.capacity)
    (hbits : IsBitmap s.mem s.freeMap s.capacity fun x ↦ decide (x ≤ ROOT_DIR_SECTOR)) :
    (∀ s', doFormat s = some s' → ∃ map root f, Formats map root s s' f) ∧
      ((∀ i, s.mallocs i = true) → 4 ≤ s.capacity → (doFormat s).isSome) := by
  obtain ⟨hcreates, hroom⟩ := freeMapCreate_spec hidle hnone hsmall hcapacity hbits
  cases hcreate : freeMapCreate s with
  | none =>
    have hcall : doFormat s = none := by
      rw [doFormat, hcreate]
      rfl
    refine ⟨fun s' hs' ↦ absurd (hcall.symm.trans hs').symm (Option.some_ne_none s'), fun hall hfour ↦ ?_⟩
    exact absurd (hroom hall hfour) (hcreate ▸ Bool.false_ne_true)
  | some s₁ =>
    obtain ⟨map, p, m, f, hcreated⟩ := hcreates s₁ hcreate
    have hsectors := hcreated.sectors
    have hmem : (FREE_MAP_SECTOR, map) ∈ [(FREE_MAP_SECTOR, map)] := List.mem_singleton_self _
    have hsize : byteCnt s₁.capacity = map.length.toNat := by
      rw [hcreated.length, hcreated.capacity]
      rfl
    obtain ⟨created, mem, disk, calls, hdir, hmakes⟩ := inodeCreate_spec hsectors
      (hcreated.opened.mapFileIn (hsectors.fits hmem)) hmem (show (0 : ℤ) ≤ (16 * ENTRY_SIZE : ℕ) by decide)
      (by decide)
    have hclose : freeMapClose (s₁.mapped mem disk calls) = some (s₁.mapped mem disk calls).idle :=
      (hcreated.opened.mapped mem disk calls).close
    have hcall : doFormat s = if created then some (s₁.mapped mem disk calls).idle else none := by
      have hdir' : dirCreate s₁ ROOT_DIR_SECTOR 16 = some (created, s₁.mapped mem disk calls) := hdir
      rw [doFormat, hcreate, Option.bind_eq_bind, Option.bind_some, hdir', Option.bind_eq_bind, Option.bind_some]
      dsimp only
      rw [hclose]
    refine ⟨fun s' hs' ↦ ?_, fun hall hfour ↦ ?_⟩
    · rw [hcall] at hs'
      split_ifs at hs' with hok
      obtain rfl := Option.some.inj hs'
      obtain ⟨start, hrun, hsectors', hzeros, hsaved⟩ := hmakes.creates hok
      have hidle' : Idle (s₁.mapped mem disk calls).idle := ⟨rfl, rfl, rfl⟩
      refine ⟨map, _, _, hidle', ⟨hsectors'.bits, hsectors'.small, hsectors'.ledger, hsectors'.stored,
        hsectors'.sized, hsectors'.durable⟩, hcreated.capacity ▸ hsaved, fun x hx ↦ ?_, hcreated.length, rfl,
        fun k hk ↦ ?_, hcreated.capacity, hcreated.four hrun, ?_⟩
      · have hused := hcreated.used x hx
        rw [covered_cons] at hused
        rw [rangesOf, List.cons_append, List.cons_append, List.nil_append, covered_cons, covered_cons, or_left_comm,
          ← hused]
        change _ ↔ Covers (start, bytesToSectors (16 * ENTRY_SIZE : ℕ)) x ∨ _
        unfold setRange
        split_ifs with hin
        · exact iff_of_true rfl (Or.inl hin)
        · exact (or_iff_right hin).symm
      · refine entry_of_zeros (fun pos hpos ↦ ?_) hk
        exact sameByte (hsectors'.sized _ List.mem_cons_self).2.1 hzeros hpos
      · obtain ⟨c, hmallocs⟩ := hcreated.mallocs
        exact ⟨calls + c, fun i ↦ (hmallocs (i + calls)).trans (congrArg s.mallocs (Nat.add_assoc ..))⟩
    · obtain ⟨c, hmallocs⟩ := hcreated.mallocs
      have hall₁ : ∀ i, s₁.mallocs i = true := fun i ↦ (hmallocs i).trans (hall _)
      have hok : created = true := (hmakes.exact hsize).1.mpr
        ⟨hall₁ 0, ⟨_, hcreated.isRun hfour⟩, fun i _ ↦ hall₁ _⟩
      rw [hcall, if_pos hok]
      rfl

/-! ### `filesys_init` -/

/-- A volume that has just been formatted: the root directory has no entry, and the sectors of the two inodes are
in use and no others. -/
structure Formatted (map root : InodeDisk) (s : State) : Prop where
  sound : ∃ b, Session.Sound map root ⟨s, [], []⟩ b
  mapLength : map.length = byteCnt s.capacity
  rootLength : root.length = 16 * ENTRY_SIZE
  entries : ∀ k < root.slots, root.entry s.disk k = none
  used : ∀ x < s.capacity, bitmapTest s.mem s.freeMap x = some true ↔
    Covered (rangesOf (ROOT_DIR_SECTOR, root) ++ rangesOf (FREE_MAP_SECTOR, map)) x

/-- `filesys_init` formats any disk that is large enough, unless it panics for want of memory. -/
theorem filesysInit_format {capacity block bits : ℕ} (hblocks : Blocks block bits capacity) (hmin : 1 < capacity)
    (hmax : capacity ≤ 2 ^ 28) (disk : Bytes) (mem : Memory) (mallocs : ℕ → Bool) :
    (∀ s', filesysInit (.boot disk capacity mem mallocs) (some block) (some bits) true = some s' →
      s'.capacity = capacity ∧ (∃ c, ∀ i, s'.mallocs i = mallocs (i + c)) ∧ ∃ map root, Formatted map root s') ∧
    ((∀ i, mallocs i = true) →
      ((filesysInit (.boot disk capacity mem mallocs) (some block) (some bits) true).isSome ↔ 4 ≤ capacity)) := by
  obtain ⟨mem₁, hinit, hbits⟩ := freeMapInit_spec (s := .boot disk capacity mem mallocs) hblocks hmin
  let s₁ : State := { State.boot disk capacity mem mallocs with mem := mem₁, freeMap := block }
  obtain ⟨hformats, hroom⟩ := doFormat_spec (s := s₁) ⟨rfl, rfl, rfl⟩ rfl hmax hmin hbits
  have hcall : filesysInit (.boot disk capacity mem mallocs) (some block) (some bits) true =
      (doFormat s₁).bind freeMapOpen := by
    change (freeMapInit (.boot disk capacity mem mallocs) (some block) (some bits)).bind _ = _
    rw [hinit, Option.bind_some, if_pos rfl, Option.bind_eq_bind]
  rw [hcall]
  cases hformat : doFormat s₁ with
  | none =>
    refine ⟨fun s' hs' ↦ absurd hs'.symm (Option.some_ne_none s'), fun hall ↦
      iff_of_false Bool.false_ne_true fun hfour ↦ ?_⟩
    exact absurd (hroom hall hfour) (hformat ▸ Bool.false_ne_true)
  | some s₂ =>
    obtain ⟨map, root, f, hdone⟩ := hformats s₂ hformat
    obtain ⟨c, hmallocs⟩ := hdone.mallocs
    have hcapacity : s₂.capacity = capacity := hdone.capacity
    have hmapOwner : (FREE_MAP_SECTOR, map) ∈ [(ROOT_DIR_SECTOR, root), (FREE_MAP_SECTOR, map)] :=
      List.mem_cons_of_mem _ (List.mem_singleton_self _)
    have hsize : byteCnt s₂.capacity = map.length.toNat := by
      rw [hcapacity, hdone.mapLength]
      rfl
    obtain ⟨hopens, hmemory⟩ := freeMapOpen_spec hdone.idle (hdone.sectors.stored _ hmapOwner)
      (hdone.sectors.fits hmapOwner) (hdone.sectors.onDisk hmapOwner) hdone.sectors.bits
      (hcapacity ▸ Nat.zero_lt_of_lt hmin) hsize
    refine ⟨fun s' hs' ↦ ?_, fun hall ↦ iff_of_true (hmemory fun i _ ↦ (hmallocs i).trans (hall _)) hdone.four⟩
    obtain ⟨mem', calls, rfl, hread⟩ := hopens s' hs'
    let s₃ : State := (s₂.mapOpened map).mapped mem' s₂.disk calls
    have hsaved : ∀ x < s₂.capacity, f x = mapBit map s₂.disk x := fun x hx ↦
      (hdone.saved x (hdone.capacity ▸ hx)).2.symm
    have hsectors : Sectors s₃ f [] [(ROOT_DIR_SECTOR, root), (FREE_MAP_SECTOR, map)] :=
      hdone.sectors.step s₃ rfl (hread.congr hsaved) (fun _ _ _ _ ↦ rfl)
        (fun x hx ↦ (hdone.sectors.ledger.usable x hx).2) hdone.sectors.durable
    have hentries : ∀ k < root.slots, root.entry s₃.disk k = none := hdone.entries
    have hunnamed : ∀ {k name x}, k < root.slots → root.entry s₃.disk k ≠ some (name, x) := by
      intro k name x hk
      rw [hentries k hk]
      exact (Option.some_ne_none _).symm
    have hsound := ((mapOpen_opened s₂ map).mapped mem' s₂.disk calls).sound hsectors hmapOwner
      List.mem_cons_self hsize (by rw [hdone.rootLength]; rfl)
      (fun x ⟨k, hk, name, hentry⟩ ↦ absurd hentry (hunnamed hk))
      fun j hj k _ name _ x hentry _ ↦ absurd hentry (hunnamed hj)
    refine ⟨hcapacity, ⟨calls + 2 + c, fun i ↦ ?_⟩, map, root, ⟨_, hsound⟩, ?_, hdone.rootLength, hentries, fun x hx ↦ ?_⟩
    · exact (hmallocs (i + calls + 2)).trans (congrArg mallocs (show i + calls + 2 + c = i + (calls + 2 + c) by omega))
    · rw [hdone.mapLength]
      exact congrArg (fun n ↦ (byteCnt n : ℤ)) hcapacity.symm
    · rw [bitmapTest_eq hsectors.bits hx, Option.some.injEq]
      exact hdone.used x (hdone.capacity ▸ hx)

end Jungle.FileSys
