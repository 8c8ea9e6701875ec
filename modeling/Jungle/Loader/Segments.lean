import Jungle.Lib.Loop
import Jungle.Loader.Rounds

/-!
# The memory image of a segment

The numbers of bytes that `load` computes from a header are those of the pages of the segment, but for the
upper half of `zero_bytes`. So the pages of the segment are all mapped and filled exactly if this half is
zero (`segment_loaded_iff`).
-/

set_option autoImplicit false
set_option relaxedAutoImplicit false

namespace Jungle.Loader

open Jungle.Lib Jungle.Paging
open Jungle.FileSys (Inode Ready)

variable {s : Process} {phdr : Phdr} {inode : Inode} {file a : ℕ} {byte : UInt8}

/-- The byte at an address of the process. -/
def userByte (s : Process) (a : ℕ) : Option UInt8 := do
  let kaddr ← (← pml4GetPage s.machine s.pml4 a)
  return s.content (kaddr - pageOfs kaddr) (pageOfs kaddr)

/-- The addresses of the pages of a segment. -/
def Phdr.Covers (phdr : Phdr) (a : ℕ) : Prop :=
  phdr.vaddr / pgSize * pgSize ≤ a ∧ a < (phdr.vaddr + phdr.memsz + pgSize - 1) / pgSize * pgSize

instance (phdr : Phdr) (a : ℕ) : Decidable (phdr.Covers a) := inferInstanceAs (Decidable (_ ∧ _))

/-- `load` goes on with all pages of the segment mapped and filled. -/
def Loaded (s : Process) (file : ℕ) (phdr : Phdr) (data : FileSys.InodeDisk) : Prop :=
  ∃ s', Returns (fun fuel ↦ loadPhdr fuel s file phdr) (true, s') ∧
    (∀ a, phdr.Covers a → (userByte s' a).isSome) ∧
    ∀ i < phdr.memsz, userByte s' (phdr.vaddr + i) =
      if i < phdr.filesz then (data.contents s.fs.disk)[phdr.offset + i]? else some 0

/-- The number of bytes of a segment and of its first page before it, rounded up to pages. -/
def Phdr.total (phdr : Phdr) : ℕ := (pageOfs phdr.vaddr + phdr.memsz + pgSize - 1) / pgSize * pgSize

/-- The bytes that are to be read for the segment, with those of the first page before it. -/
def Phdr.front (phdr : Phdr) : ℕ := if 0 < phdr.filesz then pageOfs phdr.vaddr + phdr.filesz else 0

theorem Shows.userByte (h : Shows s a byte) : userByte s a = some byte := by
  obtain ⟨k, i, hget, hk, hi, -, hbyte⟩ := h
  have hofs : pageOfs (k + i) = i := by
    have haligned := hk.aligned
    unfold pageOfs pgSize at *
    omega
  rw [Loader.userByte, hget, Option.bind_eq_bind, Option.bind_some, Option.bind_eq_bind,
    Option.bind_some, hofs, Nat.add_sub_cancel, hbyte]
  rfl

/-- What `validate_segment` accepts, of a file whose length is an `off_t`. -/
structure Accepted (phdr : Phdr) : Prop where
  offset : pageOfs phdr.offset = pageOfs phdr.vaddr
  start : phdr.offset < 2 ^ 31
  filesz : phdr.filesz ≤ phdr.memsz
  nonempty : 0 < phdr.memsz
  user : phdr.vaddr + phdr.memsz < kernBase
  inside : phdr.offset + phdr.filesz < 2 ^ 31

theorem accepted {length : ℤ} (hvalid : validateSegment phdr length = true)
    (hlength : length < 2 ^ 31) (hinside : ((phdr.offset + phdr.filesz : ℕ) : ℤ) ≤ length)
    (hmemsz : phdr.memsz < 2 ^ 64) : Accepted phdr := by
  obtain ⟨hofs, -, hfilesz, hnonempty, huser, hend, hwrap, -⟩ := of_decide_eq_true hvalid
  have huser' : phdr.vaddr < kernBase := of_decide_eq_true huser
  have hend' : (phdr.vaddr + phdr.memsz) % 2 ^ 64 < kernBase := of_decide_eq_true hend
  refine ⟨hofs, by omega, hfilesz, Nat.pos_of_ne_zero hnonempty, ?_, by omega⟩
  unfold kernBase at *
  omega

theorem Accepted.roundUp (h : Accepted phdr) :
    roundUp ((pageOfs phdr.vaddr + phdr.memsz) % 2 ^ 64) = phdr.total := by
  have huser := h.user
  have hofs : pageOfs phdr.vaddr < pgSize := Nat.mod_lt _ (by decide)
  unfold Loader.roundUp Phdr.total kernBase pgSize at *
  have hsmall : pageOfs phdr.vaddr + phdr.memsz < 2 ^ 63 := by omega
  have hwrap : (pageOfs phdr.vaddr + phdr.memsz) % 2 ^ 64 = pageOfs phdr.vaddr + phdr.memsz :=
    Nat.mod_eq_of_lt (by omega)
  have hwrap' : (pageOfs phdr.vaddr + phdr.memsz + 4096 - 1) % 2 ^ 64 =
      pageOfs phdr.vaddr + phdr.memsz + 4096 - 1 := Nat.mod_eq_of_lt (by omega)
  rw [hwrap, hwrap']

/-- `read_bytes` loses nothing. -/
theorem Accepted.readBytes (h : Accepted phdr) : readBytes phdr = phdr.front := by
  have hinside := h.inside
  have hofs : pageOfs phdr.vaddr < 4096 := Nat.mod_lt _ (by decide)
  unfold Loader.readBytes Phdr.front
  split_ifs with hfilesz
  · exact Nat.mod_eq_of_lt (by omega)
  · rfl

theorem Accepted.front_le (h : Accepted phdr) : phdr.front ≤ phdr.total := by
  have hfilesz := h.filesz
  unfold Phdr.front Phdr.total pgSize
  split_ifs <;> omega

/-- `zero_bytes` loses its upper half. -/
theorem Accepted.zeroBytes (h : Accepted phdr) :
    zeroBytes phdr = (phdr.total - phdr.front) % 2 ^ 32 := by
  have hle := h.front_le
  have htotal : phdr.total < 2 ^ 63 := by
    have huser := h.user
    have hofs : pageOfs phdr.vaddr < pgSize := Nat.mod_lt _ (by decide)
    unfold Phdr.total kernBase pgSize at *
    omega
  unfold Loader.zeroBytes
  rw [h.roundUp, h.readBytes]
  split_ifs with hfilesz
  · omega
  · rw [Phdr.front, if_neg hfilesz, Nat.sub_zero]

/-- The number of pages that `load_segment` maps. -/
def Phdr.pages (phdr : Phdr) : ℕ := (readBytes phdr + zeroBytes phdr) / pgSize

theorem Accepted.pages (h : Accepted phdr) :
    Loader.readBytes phdr + Loader.zeroBytes phdr = phdr.pages * pgSize := by
  have hle := h.front_le
  have hmod : phdr.total % 4096 = 0 := by
    unfold Phdr.total pgSize
    exact Nat.mul_mod_left _ _
  unfold Phdr.pages
  rw [h.readBytes, h.zeroBytes]
  unfold pgSize
  omega

/-- All pages of the segment are mapped just if `zero_bytes` has 32 bits. -/
theorem Accepted.pages_mul (h : Accepted phdr) :
    (phdr.total < 2 ^ 32 + phdr.front → phdr.pages * pgSize = phdr.total) ∧
      (¬phdr.total < 2 ^ 32 + phdr.front → phdr.pages * pgSize < phdr.total) := by
  have hle := h.front_le
  rw [← h.pages, h.readBytes, h.zeroBytes]
  omega

theorem Accepted.covers_iff (h : Accepted phdr) :
    phdr.Covers a ↔ phdr.vaddr - pageOfs phdr.vaddr ≤ a ∧
      a < phdr.vaddr - pageOfs phdr.vaddr + phdr.total := by
  have hnonempty := h.nonempty
  unfold Phdr.Covers Phdr.total pageOfs pgSize
  omega

/-- The loop of `load_segment` that `load` comes to. -/
theorem loadPhdr_eq {f : FileSys.File} (hf : s.fs.files file = some f)
    (hinode : s.fs.inodes f.inode = some inode) (hvalid : validateSegment phdr inode.data.length = true)
    (h : Accepted phdr) (fuel : ℕ) :
    loadPhdr fuel s file phdr =
      loadLoop fuel { s with
          fs := { s.fs with
            files := s.fs.files.put file { f with pos := phdr.offset - pageOfs phdr.offset } } }
        file (phdr.vaddr - pageOfs phdr.vaddr) (readBytes phdr) (zeroBytes phdr)
        (phdr.flags / PF_W % 2 = 1) := by
  have hstart := h.start
  have hpos : int32 ((phdr.offset - pageOfs phdr.offset : ℕ) : ℤ) =
      (phdr.offset - pageOfs phdr.offset : ℕ) := by
    refine int32_of_mem ?_ ?_
    · unfold intMin
      omega
    · unfold intMax
      omega
  have hlength : FileSys.fileLength s.fs file = some inode.data.length := by
    rw [FileSys.fileLength, hf, Option.bind_eq_bind, Option.bind_some, hinode]
    rfl
  have hseek : FileSys.fileSeek s.fs file ((phdr.offset - pageOfs phdr.offset : ℕ) : ℤ) =
      some { s.fs with
        files := s.fs.files.put file { f with pos := phdr.offset - pageOfs phdr.offset } } := by
    rw [FileSys.fileSeek, hf, Option.bind_eq_bind, Option.bind_some, if_pos (Int.natCast_nonneg _)]
    rfl
  have hwhole : (readBytes phdr + zeroBytes phdr) % 2 ^ 32 % pgSize = 0 := by
    have hpages := h.pages
    unfold pgSize at hpages ⊢
    omega
  have hpage : pageOfs (phdr.vaddr - pageOfs phdr.vaddr) = 0 := by
    unfold pageOfs pgSize
    omega
  have hofs : ((phdr.offset - pageOfs phdr.offset : ℕ) : ℤ).tmod pgSize = 0 := by
    rw [Int.tmod_eq_emod_of_nonneg (Int.natCast_nonneg _), ← Int.natCast_mod]
    unfold pageOfs pgSize
    omega
  rw [loadPhdr, hlength, Option.bind_eq_bind, Option.bind_some, if_pos hvalid]
  dsimp only
  rw [loadSegment, hpos, if_pos ⟨hwhole, hpage, hofs⟩, hseek]
  rfl

/-- What the process maps and holds when `load` comes to the end of the segment. -/
theorem loadPhdr_spec {f : FileSys.File} (hf : s.fs.files file = some f)
    (hready : Ready s.fs f.inode inode) (hvalid : validateSegment phdr inode.data.length = true)
    (h : Accepted phdr) (hinside : ((phdr.offset + phdr.filesz : ℕ) : ℤ) ≤ inode.data.length)
    (hfresh : Fresh s phdr.pages)
    (hunmapped : ∀ a, phdr.Covers a → pml4GetPage s.machine s.pml4 a = some none) :
    ∃ s', Returns (fun fuel ↦ loadPhdr fuel s file phdr) (true, s') ∧ s'.pml4 = s.pml4 ∧
      (∀ a, isUserVaddr a → ¬Pages (phdr.vaddr - pageOfs phdr.vaddr) phdr.pages a →
        pml4GetPage s'.machine s.pml4 a = pml4GetPage s.machine s.pml4 a) ∧
      ∀ i < phdr.pages * pgSize, ∃ byte, ImageByte inode s.fs.disk (phdr.offset - pageOfs phdr.offset)
        phdr.front i byte ∧ userByte s' (phdr.vaddr - pageOfs phdr.vaddr + i) = some byte := by
  have hofs := h.offset
  have hle := h.front_le
  have hmul := h.pages_mul
  have hpages : phdr.pages * pgSize ≤ phdr.total := by omega
  have huser : phdr.vaddr - pageOfs phdr.vaddr + phdr.total ≤ kernBase := by
    have huser := h.user
    unfold Phdr.total pageOfs pgSize kernBase at *
    omega
  have hu : pgOfs (phdr.vaddr - pageOfs phdr.vaddr) = 0 := by
    rw [pgOfs_eq]
    unfold pageOfs pgSize
    omega
  have hunmapped' : ∀ i < phdr.pages,
      pml4GetPage s.machine s.pml4 (phdr.vaddr - pageOfs phdr.vaddr + i * pgSize) = some none := by
    intro i hi
    have hlast : (i + 1) * pgSize ≤ phdr.pages * pgSize := Nat.mul_le_mul_right _ hi
    have hadd : (i + 1) * pgSize = i * pgSize + pgSize := Nat.succ_mul i pgSize
    have hpage : 0 < pgSize := by decide
    exact hunmapped _ (h.covers_iff.mpr (by omega))
  have hroom : ((phdr.offset - pageOfs phdr.offset + phdr.front : ℕ) : ℤ) ≤ inode.data.length := by
    have hlow : pageOfs phdr.offset ≤ phdr.offset := Nat.mod_le ..
    unfold Phdr.front
    split_ifs <;> omega
  have hbytes := h.pages
  rw [h.readBytes] at hbytes
  have hzero : zeroBytes phdr < 2 ^ 32 := h.zeroBytes ▸ Nat.mod_lt _ (by decide)
  let s₀ : Process := ⟨{ s.fs with
    files := s.fs.files.put file { f with pos := phdr.offset - pageOfs phdr.offset } },
    s.machine, s.basePml4, s.pml4, s.content, s.userPages⟩
  have hfile : OpenAt s₀.fs file inode (phdr.offset - pageOfs phdr.offset) :=
    ⟨{ f with pos := phdr.offset - pageOfs phdr.offset }, Store.put_self .., rfl,
      ⟨hready.found, hready.fits, hready.mallocs⟩⟩
  have hfresh₀ : Fresh s₀ phdr.pages :=
    ⟨hfresh.tables, hfresh.plenty, hfresh.enough, hfresh.kernel, hfresh.apart⟩
  obtain ⟨s', hloop, hkeeps, hshows⟩ := loadLoop_spec hfresh₀ hfile hu (by omega) hunmapped' hbytes
    hzero hroom (decide (phdr.flags / PF_W % 2 = 1))
  refine ⟨s', ⟨phdr.pages, fun fuel hfuel ↦ ?_⟩, hkeeps.pml4, hkeeps.lookup, fun i hi ↦ ?_⟩
  · exact (loadPhdr_eq hf hready.found hvalid h fuel).trans (h.readBytes ▸ hloop fuel hfuel)
  · obtain ⟨byte, himage, hshow⟩ := hshows i hi
    exact ⟨byte, himage, hshow.userByte⟩

/-- The bytes of the segment, from the image of its pages. -/
theorem ImageByte.segment (h : Accepted phdr) {disk : Bytes} {i : ℕ}
    (himage : ImageByte inode disk (phdr.offset - pageOfs phdr.offset) phdr.front
      (pageOfs phdr.vaddr + i) byte) :
    (if i < phdr.filesz then (inode.data.contents disk)[phdr.offset + i]? else some 0) = some byte := by
  have hofs := h.offset
  have hlow : pageOfs phdr.offset ≤ phdr.offset := Nat.mod_le ..
  unfold ImageByte Phdr.front at himage
  by_cases hi : i < phdr.filesz
  · have hread : pageOfs phdr.vaddr + i < pageOfs phdr.vaddr + phdr.filesz := Nat.add_lt_add_left hi _
    have hpos : phdr.offset - pageOfs phdr.offset + (pageOfs phdr.vaddr + i) = phdr.offset + i := by
      omega
    rw [if_pos (show 0 < phdr.filesz by omega), if_pos hread, hpos] at himage
    rw [if_pos hi, himage]
  · rw [if_neg (by split_ifs <;> omega)] at himage
    rw [if_neg hi, himage]

/-- With every allocation succeeding, a segment accepted by `validate_segment` whose bytes the file has
and whose pages are not mapped is loaded as a whole exactly if the pages from the end of the bytes that
are read to the end of the segment have less than `2 ^ 32` bytes. -/
theorem segment_loaded_iff {f : FileSys.File} (hf : s.fs.files file = some f)
    (hready : Ready s.fs f.inode inode) (hlength : inode.data.length < 2 ^ 31)
    (hmemsz : phdr.memsz < 2 ^ 64) (hvalid : validateSegment phdr inode.data.length = true)
    (hinside : ((phdr.offset + phdr.filesz : ℕ) : ℤ) ≤ inode.data.length)
    (hfresh : Fresh s phdr.pages)
    (hunmapped : ∀ a, phdr.Covers a → pml4GetPage s.machine s.pml4 a = some none) :
    Loaded s file phdr inode.data ↔ phdr.total < 2 ^ 32 + phdr.front := by
  have h := accepted hvalid hlength hinside hmemsz
  obtain ⟨s', hreturns, hpml4, hothers, hbytes⟩ :=
    loadPhdr_spec hf hready hvalid h hinside hfresh hunmapped
  obtain ⟨hall, hlost⟩ := h.pages_mul
  have hlow : pageOfs phdr.vaddr ≤ phdr.vaddr := Nat.mod_le ..
  constructor
  · rintro ⟨s'', hreturns', hmapped, -⟩
    obtain rfl : s' = s'' := (Prod.mk.inj (hreturns.unique hreturns')).2
    by_contra hlarge
    have hshort := hlost hlarge
    let a := phdr.vaddr - pageOfs phdr.vaddr + phdr.pages * pgSize
    have hcovers : phdr.Covers a := h.covers_iff.mpr ⟨Nat.le_add_right .., Nat.add_lt_add_left hshort _⟩
    have huser : isUserVaddr a := by
      have huser := h.user
      refine decide_eq_true ?_
      have hend := (h.covers_iff.mp hcovers).2
      unfold Phdr.total pageOfs pgSize kernBase at *
      omega
    have hnone := (hothers a huser fun hpages ↦ absurd hpages.2 (Nat.lt_irrefl _)).trans
      (hunmapped a hcovers)
    have hsome := hmapped a hcovers
    rw [userByte, hpml4, hnone] at hsome
    simp at hsome
  · intro hsmall
    rw [hall hsmall] at hbytes
    refine ⟨s', hreturns, fun a ha ↦ ?_, fun i hi ↦ ?_⟩
    · obtain ⟨hstart, hend⟩ := h.covers_iff.mp ha
      obtain ⟨byte, -, hbyte⟩ := hbytes (a - (phdr.vaddr - pageOfs phdr.vaddr)) (by omega)
      rw [Nat.add_sub_cancel' hstart] at hbyte
      rw [hbyte]
      rfl
    · have hlt : pageOfs phdr.vaddr + i < phdr.total := by
        unfold Phdr.total pgSize
        omega
      obtain ⟨byte, himage, hbyte⟩ := hbytes (pageOfs phdr.vaddr + i) hlt
      have haddr : phdr.vaddr - pageOfs phdr.vaddr + (pageOfs phdr.vaddr + i) = phdr.vaddr + i := by
        omega
      rw [haddr] at hbyte
      rw [hbyte]
      exact (himage.segment h).symm

/-! ### A process -/

theorem pml4GetPage_of_not_present {machine : Machine} {root : ℕ} {entries : ℕ → ℕ} (hroot : root ≠ 0)
    (hpage : machine.pages root = some entries) (ha : isUserVaddr a)
    (habsent : ¬present (entries (pml4 a))) : pml4GetPage machine root a = some none := by
  rw [pml4GetPage_eq ha, indices, find, if_neg hroot, readEntry_eq hpage, Option.bind_eq_bind,
    Option.bind_some, if_neg habsent]
  rfl

/-- A table made after a boot, with three pages for more tables. -/
theorem exists_boot_table : ∃ machine base root, (∃ label kernelEntries roots,
      Layout machine label base kernelEntries roots ∧ root ∈ roots) ∧ Plenty machine 3 ∧
    ∀ a < 2 ^ 39, pml4GetPage machine root a = some none := by
  let boot := (pagingInit ⟨0, 0⟩ bootMachine pgSize).get (by decide +kernel)
  let first := (pml4Create (boot.2.supplied [some (nthPage 4)]) boot.1).get (by decide +kernel)
  let sys : System := ⟨first.2, first.1.toList ++ []⟩
  let machine := first.2.supplied [some (nthPage 5), some (nthPage 6), some (nthPage 7)]
  have hinit : pagingInit ⟨0, 0⟩ bootMachine pgSize = some boot := (Option.some_get _).symm
  have hfirst : pml4Create (boot.2.supplied [some (nthPage 4)]) boot.1 = some first :=
    (Option.some_get _).symm
  have hrun : Run (Step boot.1) ⟨boot.2, []⟩ [.create] sys := .single (.create hfirst)
  have hroot : nthPage 4 ∈ sys.tables := by decide +kernel
  obtain ⟨-, label, kernelEntries, -, hlayout, -⟩ := run_layout hinit hrun
  have hfree : ∀ n < 8, 4 < n → IsFreePage machine (nthPage n) := by decide +kernel
  have habsent : (machine.pages (nthPage 4)).map (fun entries ↦ present (entries 0)) = some false := by
    decide +kernel
  refine ⟨machine, boot.1, nthPage 4, ⟨label, kernelEntries, sys.tables, hlayout.supplied _, hroot⟩,
    ⟨⟨fun page hpage ↦ ?_, by decide⟩, Nat.le_refl 3, by decide⟩, fun a ha ↦ ?_⟩
  · have hpage' : some page ∈ [some (nthPage 5), some (nthPage 6), some (nthPage 7)] := hpage
    simp only [List.mem_cons, Option.some.injEq, List.not_mem_nil, or_false] at hpage'
    obtain rfl | rfl | rfl := hpage' <;> exact hfree _ (by decide) (by decide)
  · obtain ⟨entries, hentries, hzero⟩ := Option.map_eq_some_iff.mp habsent
    have hindex : pml4 a = 0 := by
      unfold pml4
      rw [index_eq]
      omega
    refine pml4GetPage_of_not_present (by decide) hentries (decide_eq_true ?_) ?_
    · unfold kernBase
      omega
    · rw [hindex, hzero]
      exact Bool.false_ne_true

/-- The disk of eight sectors, with its file of `600` bytes open. -/
def smallFiles : FileSys.State :=
  { FileSys.smallDisk with files := Store.empty.put 0 ⟨0, 0, false⟩ }

theorem ready_smallFiles : Ready smallFiles 0 ⟨1, 1, false, 0, ⟨2, 600, FileSys.INODE_MAGIC⟩⟩ := by
  refine ⟨rfl, fun pos hpos ↦ ?_, fun _ ↦ rfl⟩
  replace hpos : (pos : ℤ) < 600 := hpos
  have hsector : pos / 512 < 2 := by omega
  exact ⟨show 2 + pos / 512 < 8 by omega, show 2 + pos / 512 < 2 ^ 28 by omega⟩

/-- A header of ten bytes of the file and forty zeros. -/
def smallPhdr : Phdr := ⟨PF_W, 100, 0x400064, 10, 50⟩

/-- Its segment is loaded. -/
theorem segment_loaded_small : ∃ s, Loaded s 0 smallPhdr ⟨2, 600, FileSys.INODE_MAGIC⟩ := by
  obtain ⟨machine, base, root, htables, hplenty, hunmapped⟩ := exists_boot_table
  let s : Process := ⟨smallFiles, machine, base, root, fun _ _ ↦ 1, [some (nthPage 8)]⟩
  have hfresh : Fresh s smallPhdr.pages := by
    refine ⟨htables, hplenty, Nat.le_refl 1, fun page hpage ↦ ⟨nthPage 8, ?_⟩,
      List.nodup_cons.mpr ⟨List.not_mem_nil, List.nodup_nil⟩⟩
    exact ⟨List.mem_singleton.mp hpage, by decide, by decide, by decide⟩
  have hf : s.fs.files 0 = some ⟨0, 0, false⟩ := rfl
  have hvalid : validateSegment smallPhdr 600 = true := by decide
  refine ⟨s, (segment_loaded_iff hf ready_smallFiles (by decide) (by decide) hvalid (by decide) hfresh
    fun a ha ↦ hunmapped a ?_).mpr (by decide)⟩
  have hend : a < (0x400064 + 50 + 4096 - 1) / 4096 * 4096 := ha.2
  omega

/-- A header of `2 ^ 32` zeros. -/
def zerosPhdr : Phdr := ⟨PF_W, 0, 0x400000, 0, 2 ^ 32⟩

/-- No page of a segment of `2 ^ 32` zeros is mapped, though no allocation fails. -/
theorem not_segment_loaded : ¬∀ (s : Process) (file : ℕ) (phdr : Phdr) (f : FileSys.File) (inode : Inode),
    s.fs.files file = some f → Ready s.fs f.inode inode → inode.data.length < 2 ^ 31 →
      phdr.memsz < 2 ^ 64 → validateSegment phdr inode.data.length = true →
      ((phdr.offset + phdr.filesz : ℕ) : ℤ) ≤ inode.data.length → Fresh s phdr.pages →
      (∀ a, phdr.Covers a → pml4GetPage s.machine s.pml4 a = some none) →
      Loaded s file phdr inode.data := by
  intro hall
  obtain ⟨machine, base, root, htables, hplenty, hunmapped⟩ := exists_boot_table
  let s : Process := ⟨smallFiles, machine, base, root, fun _ _ ↦ 1, [some (nthPage 8)]⟩
  have hpages : zerosPhdr.pages = 0 := by decide
  have hfresh : Fresh s zerosPhdr.pages := by
    rw [hpages]
    refine ⟨htables, hplenty.mono (Nat.zero_le 3), Nat.zero_le 1, fun page hpage ↦ ⟨nthPage 8, ?_⟩,
      List.nodup_cons.mpr ⟨List.not_mem_nil, List.nodup_nil⟩⟩
    exact ⟨List.mem_singleton.mp hpage, by decide, by decide, by decide⟩
  have hempty : ∀ a, zerosPhdr.Covers a → pml4GetPage s.machine s.pml4 a = some none := by
    intro a ha
    have hend : a < (0x400000 + 2 ^ 32 + 4096 - 1) / 4096 * 4096 := ha.2
    exact hunmapped a (by omega)
  have hvalid : validateSegment zerosPhdr 600 = true := by decide
  have haccepted : Accepted zerosPhdr := accepted hvalid (by decide) (by decide) (by decide)
  have hf : s.fs.files 0 = some ⟨0, 0, false⟩ := rfl
  obtain ⟨s', hreturns, hpml4, hothers, -⟩ := loadPhdr_spec hf
    ready_smallFiles (by decide) haccepted (by decide) hfresh hempty
  obtain ⟨s'', hreturns', hmapped, -⟩ := hall s 0 zerosPhdr ⟨0, 0, false⟩ _ hf ready_smallFiles
    (by decide) (by decide) (by decide) (by decide) hfresh hempty
  obtain rfl : s' = s'' := (Prod.mk.inj (hreturns.unique hreturns')).2
  have hcovers : zerosPhdr.Covers 0x400000 := by decide
  have hnot : ¬Pages (zerosPhdr.vaddr - pageOfs zerosPhdr.vaddr) zerosPhdr.pages 0x400000 := by
    rw [hpages]
    decide
  have hsome := hmapped 0x400000 hcovers
  rw [userByte, hpml4, hothers 0x400000 (by decide) hnot, hempty 0x400000 hcovers] at hsome
  simp at hsome

end Jungle.Loader
