import Jungle.FileSys.Contents
import Jungle.Loader.Basic
import Jungle.Paging.Supply

/-!
# The pages of a segment

With all calls of `malloc` and of `palloc_get_page` succeeding, the loop of `load_segment` maps as many
pages as its two numbers of bytes make up and fills them (`loadLoop_spec`).
-/

set_option autoImplicit false
set_option relaxedAutoImplicit false

namespace Jungle.Loader

open Jungle.Lib Jungle.Paging
open Jungle.FileSys (Inode Ready transferred)

/-- The page tables are laid out, and there is memory for so many pages of a user. -/
structure Fresh (s : Process) (n : ℕ) : Prop where
  tables : ∃ label kernelEntries roots,
    Layout s.machine label s.basePml4 kernelEntries roots ∧ s.pml4 ∈ roots
  plenty : Plenty s.machine (3 * n)
  enough : n ≤ s.userPages.length
  kernel : ∀ page ∈ s.userPages, ∃ k, page = some k ∧ IsKernelPage k
  apart : s.userPages.Nodup

/-- The file is open at a position, and can be read. -/
def OpenAt (fs : FileSys.State) (file : ℕ) (inode : Inode) (pos : ℕ) : Prop :=
  ∃ f, fs.files file = some f ∧ f.pos = pos ∧ Ready fs f.inode inode

/-- Other user addresses are mapped as before, and other pages hold what they did. -/
structure Keeps (s s' : Process) (mapped : ℕ → Prop) : Prop where
  pml4 : s'.pml4 = s.pml4
  lookup : ∀ a, isUserVaddr a → ¬mapped a →
    pml4GetPage s'.machine s.pml4 a = pml4GetPage s.machine s.pml4 a
  content : ∀ k, some k ∉ s.userPages → s'.content k = s.content k
  supply : ∀ page ∈ s'.userPages, page ∈ s.userPages

/-- The address is that of a byte in a page that is not to be handed out. -/
def Shows (s : Process) (a : ℕ) (byte : UInt8) : Prop :=
  ∃ k i, pml4GetPage s.machine s.pml4 a = some (some (k + i)) ∧ IsKernelPage k ∧ i < pgSize ∧
    some k ∉ s.userPages ∧ s.content k i = byte

variable {s s' s'' : Process} {file u pos n readBytes zeroBytes a : ℕ} {inode : Inode}
  {mapped mapped' : ℕ → Prop} {byte : UInt8} {fs : FileSys.State} {writable : Bool}

theorem Keeps.trans (h : Keeps s s' mapped) (h' : Keeps s' s'' mapped') :
    Keeps s s'' fun a ↦ mapped a ∨ mapped' a where
  pml4 := h'.pml4.trans h.pml4
  lookup a ha hnot := by
    have hlater := h'.lookup a ha fun hmapped ↦ hnot (Or.inr hmapped)
    rw [h.pml4] at hlater
    exact hlater.trans (h.lookup a ha fun hmapped ↦ hnot (Or.inl hmapped))
  content k hk := (h'.content k fun hmem ↦ hk (h.supply _ hmem)).trans (h.content k hk)
  supply page hpage := h.supply page (h'.supply page hpage)

theorem Keeps.mono (h : Keeps s s' mapped) (hmapped : ∀ a, mapped a → mapped' a) :
    Keeps s s' mapped' :=
  ⟨h.pml4, fun a ha hnot ↦ h.lookup a ha fun hmem ↦ hnot (hmapped a hmem), h.content, h.supply⟩

/-- What is shown stays so when other pages are mapped. -/
theorem Keeps.shows (h : Keeps s s' mapped) (hshows : Shows s a byte) (ha : isUserVaddr a)
    (hnot : ¬mapped a) : Shows s' a byte := by
  obtain ⟨k, i, hget, hk, hi, hfree, hbyte⟩ := hshows
  refine ⟨k, i, ?_, hk, hi, fun hmem ↦ hfree (h.supply _ hmem), ?_⟩
  · rw [h.pml4, h.lookup a ha hnot, hget]
  · rw [h.content k hfree, hbyte]

/-! ### One page -/

theorem transferred_eq {data : FileSys.InodeDisk} {size : ℕ} (h : ((pos + size : ℕ) : ℤ) ≤ data.length) :
    transferred data size pos = size := by
  unfold transferred
  omega

/-- `file_read` of bytes that the file has. -/
theorem fileRead_spec (h : OpenAt fs file inode pos) (buffer : Bytes) {size : ℕ}
    (hsize : ((pos + size : ℕ) : ℤ) ≤ inode.data.length) :
    ∃ buffer' fs', FileSys.fileRead fs file buffer size = some (size, buffer', fs') ∧
      OpenAt fs' file inode (pos + size) ∧ fs'.disk = fs.disk ∧
      ∀ i < size, (inode.data.contents fs.disk)[pos + i]? = some (buffer' i) := by
  obtain ⟨f, hf, rfl, hready⟩ := h
  obtain ⟨buffer', hread, hbytes, -⟩ := hready.read_contents buffer size f.pos
  rw [transferred_eq hsize] at hread hbytes
  refine ⟨buffer', { fs with files := fs.files.put file { f with pos := f.pos + size } }, ?_,
    ⟨{ f with pos := f.pos + size }, Store.put_self .., rfl,
      ⟨hready.found, hready.fits, hready.mallocs⟩⟩, rfl, hbytes⟩
  rw [FileSys.fileRead, hf, Option.bind_eq_bind, Option.bind_some, hread]
  rfl

/-- `install_page` of a page that is not mapped. -/
theorem installPage_spec {k : ℕ} (htables : ∃ label kernelEntries roots,
      Layout s.machine label s.basePml4 kernelEntries roots ∧ s.pml4 ∈ roots)
    (hplenty : Plenty s.machine (3 + n)) (hu : pgOfs u = 0) (huser : isUserVaddr u)
    (hk : IsKernelPage k) (hunmapped : pml4GetPage s.machine s.pml4 u = some none) (writable : Bool) :
    ∃ machine, installPage s u k writable = some (true, { s with machine := machine }) ∧
      Plenty machine n ∧ (∃ label kernelEntries roots,
        Layout machine label s.basePml4 kernelEntries roots ∧ s.pml4 ∈ roots) ∧
      (∀ i < pgSize, pml4GetPage machine s.pml4 (u + i) = some (some (k + i))) ∧
      ∀ v, isUserVaddr v → v / 4096 ≠ u / 4096 →
        pml4GetPage machine s.pml4 v = pml4GetPage s.machine s.pml4 v := by
  obtain ⟨label, kernelEntries, roots, hlayout, hroot⟩ := htables
  obtain ⟨machine, hset, hplenty'⟩ := hlayout.setPage_plenty hroot hu huser hk hplenty writable
  have hexact := (hlayout.setPage_exact hroot hk hset).resolve_left fun h ↦ by simp at h
  have hkept := (hlayout.setPage hroot hset).resolve_left fun h ↦ by simp at h
  obtain ⟨label', -, hlayout', -⟩ := hkept
  refine ⟨machine, ?_, hplenty', ⟨label', kernelEntries, roots, hlayout', hroot⟩, hexact.2⟩
  rw [installPage, hunmapped, Option.bind_eq_bind, Option.bind_some]
  dsimp only
  rw [hset]
  rfl

/-- The first of the pages of the user pool. -/
theorem Fresh.pop (h : Fresh s (n + 1)) : ∃ k userPages, s.userPages = some k :: userPages ∧
    IsKernelPage k ∧ n ≤ userPages.length ∧ some k ∉ userPages ∧ userPages.Nodup ∧
    pallocUserPage s = (some k, { s with userPages := userPages }) := by
  have henough := h.enough
  have hkernel := h.kernel
  have hapart := h.apart
  cases hpages : s.userPages with
  | nil =>
    rw [hpages] at henough
    exact absurd henough (Nat.not_succ_le_zero n)
  | cons page userPages =>
    rw [hpages] at henough hkernel hapart
    obtain ⟨k, rfl, hk⟩ := hkernel page List.mem_cons_self
    obtain ⟨hnot, hnodup⟩ := List.nodup_cons.mp hapart
    refine ⟨k, userPages, rfl, hk, Nat.le_of_succ_le_succ henough, hnot, hnodup, ?_⟩
    rw [pallocUserPage, hpages]

/-- The byte of the image at an offset from the first page: one of the file, or zero. -/
def ImageByte (inode : Inode) (disk : Bytes) (pos readBytes i : ℕ) (byte : UInt8) : Prop :=
  if i < readBytes then (inode.data.contents disk)[pos + i]? = some byte else byte = 0

/-- The addresses of so many pages. -/
def Pages (u n a : ℕ) : Prop := u ≤ a ∧ a < u + n * pgSize

instance (u n a : ℕ) : Decidable (Pages u n a) := inferInstanceAs (Decidable (_ ∧ _))

theorem ImageByte.next {disk : Bytes} {i : ℕ} (h : ImageByte inode disk (pos + min readBytes pgSize)
    (readBytes - min readBytes pgSize) i byte) :
    ImageByte inode disk pos readBytes (pgSize + i) byte := by
  unfold ImageByte at h ⊢
  by_cases hin : i < readBytes - min readBytes pgSize
  · have hmin : min readBytes pgSize = pgSize := by omega
    have hlt : pgSize + i < readBytes := by omega
    rw [if_pos hin, hmin, Nat.add_assoc] at h
    rwa [if_pos hlt]
  · have hge : ¬pgSize + i < readBytes := by omega
    rw [if_neg hin] at h
    rwa [if_neg hge]

/-- One round of the loop maps a page and fills it. -/
theorem loadLoop_round (hfresh : Fresh s (n + 1)) (hfile : OpenAt s.fs file inode pos)
    (hu : pgOfs u = 0) (huser : isUserVaddr u)
    (hunmapped : pml4GetPage s.machine s.pml4 u = some none) (hmore : 0 < readBytes ∨ 0 < zeroBytes)
    (hroom : ((pos + readBytes : ℕ) : ℤ) ≤ inode.data.length) (writable : Bool) :
    ∃ s', (∀ fuel, loadLoop (fuel + 1) s file u readBytes zeroBytes writable =
        loadLoop fuel s' file ((u + pgSize) % 2 ^ 64) (readBytes - min readBytes pgSize)
          ((zeroBytes + 2 ^ 32 - (pgSize - min readBytes pgSize)) % 2 ^ 32) writable) ∧
      Fresh s' n ∧ OpenAt s'.fs file inode (pos + min readBytes pgSize) ∧ s'.fs.disk = s.fs.disk ∧
      Keeps s s' (Pages u 1) ∧
      ∀ i < pgSize, ∃ byte, ImageByte inode s.fs.disk pos readBytes i byte ∧ Shows s' (u + i) byte := by
  obtain ⟨k, userPages, hpages, hk, henough, hnot, hnodup, hpalloc⟩ := hfresh.pop
  have hcount : (if readBytes < pgSize then readBytes else pgSize) = min readBytes pgSize := by
    split_ifs <;> omega
  have hsize : ((pos + min readBytes pgSize : ℕ) : ℤ) ≤ inode.data.length := by
    have hle := Nat.min_le_left readBytes pgSize
    omega
  obtain ⟨buffer, fs, hread, hfile', hdisk, hbytes⟩ := fileRead_spec hfile (s.content k) hsize
  have hplenty : Plenty s.machine (3 + 3 * n) := by
    have hcount : 3 + 3 * n = 3 * (n + 1) := by omega
    rw [hcount]
    exact hfresh.plenty
  let page : Bytes := fun i ↦
    if min readBytes pgSize ≤ i ∧ i < min readBytes pgSize + (pgSize - min readBytes pgSize) then 0
    else buffer i
  obtain ⟨machine, hinstall, hplenty', htables, hmapped, hothers⟩ :=
    installPage_spec (s := ⟨fs, s.machine, s.basePml4, s.pml4, Function.update s.content k page, userPages⟩)
      hfresh.tables hplenty hu huser hk hunmapped writable
  refine ⟨⟨fs, machine, s.basePml4, s.pml4, Function.update s.content k page, userPages⟩, ?_,
    ⟨htables, hplenty', henough, ?_, hnodup⟩, hfile', hdisk, ⟨rfl, ?_, ?_, ?_⟩, ?_⟩
  · intro fuel
    rw [loadLoop, if_pos hmore]
    dsimp only
    rw [hpalloc]
    dsimp only
    rw [hcount, hread, Option.bind_eq_bind, Option.bind_some]
    dsimp only
    rw [if_neg (not_not.mpr rfl), hinstall, Option.bind_eq_bind, Option.bind_some]
    rfl
  · exact fun page hpage ↦ hfresh.kernel page (hpages ▸ List.mem_cons_of_mem _ hpage)
  · intro v hv hnot'
    refine hothers v hv fun heq ↦ hnot' ?_
    rw [pgOfs_eq] at hu
    unfold Pages pgSize
    omega
  · intro k' hk'
    refine Function.update_of_ne ?_ _ _
    rintro rfl
    exact hk' (hpages ▸ List.mem_cons_self)
  · exact fun page hpage ↦ hpages ▸ List.mem_cons_of_mem _ hpage
  · intro i hi
    refine ⟨page i, ?_, k, i, hmapped i hi, hk, hi, hnot, ?_⟩
    · by_cases hin : i < readBytes
      · have hlt : i < min readBytes pgSize := by omega
        have hpage : page i = buffer i := if_neg (by omega)
        rw [ImageByte, if_pos hin, hpage]
        exact hbytes i hlt
      · rw [ImageByte, if_neg hin]
        exact if_pos (by omega)
    · exact congrFun (Function.update_self k page s.content) i

/-- The loop maps as many pages as the numbers of bytes make up, and fills them. -/
theorem loadLoop_spec (hfresh : Fresh s n) (hfile : OpenAt s.fs file inode pos) (hu : pgOfs u = 0)
    (huser : u + n * pgSize ≤ kernBase)
    (hunmapped : ∀ i < n, pml4GetPage s.machine s.pml4 (u + i * pgSize) = some none)
    (hbytes : readBytes + zeroBytes = n * pgSize) (hzero : zeroBytes < 2 ^ 32)
    (hroom : ((pos + readBytes : ℕ) : ℤ) ≤ inode.data.length) (writable : Bool) :
    ∃ s', (∀ fuel, n < fuel → loadLoop fuel s file u readBytes zeroBytes writable = some (true, s')) ∧
      Keeps s s' (Pages u n) ∧
      ∀ i < n * pgSize, ∃ byte, ImageByte inode s.fs.disk pos readBytes i byte ∧
        Shows s' (u + i) byte := by
  induction n generalizing s u pos readBytes zeroBytes with
  | zero =>
    refine ⟨s, fun fuel hfuel ↦ ?_, ⟨rfl, fun _ _ _ ↦ rfl, fun _ _ ↦ rfl, fun _ h ↦ h⟩, fun i hi ↦ ?_⟩
    · obtain ⟨fuel, rfl⟩ : ∃ m, fuel = m + 1 := ⟨fuel - 1, by omega⟩
      rw [loadLoop, if_neg (by omega)]
      rfl
    · rw [Nat.zero_mul] at hi
      exact absurd hi (Nat.not_lt_zero i)
  | succ n ih =>
    have hpage : 0 < pgSize := by decide
    have hmul : (n + 1) * pgSize = n * pgSize + pgSize := Nat.succ_mul n pgSize
    have huser₀ : isUserVaddr u := decide_eq_true (by omega)
    have hmore : 0 < readBytes ∨ 0 < zeroBytes := by omega
    have hunmapped₀ := hunmapped 0 (Nat.succ_pos n)
    rw [Nat.zero_mul, Nat.add_zero] at hunmapped₀
    obtain ⟨s₁, hround, hfresh₁, hfile₁, hdisk₁, hkeeps₁, hshows₁⟩ :=
      loadLoop_round hfresh hfile hu huser₀ hunmapped₀ hmore hroom writable
    have hnext : (u + pgSize) % 2 ^ 64 = u + pgSize := by
      unfold kernBase at huser
      exact Nat.mod_eq_of_lt (by omega)
    have hzeros : (zeroBytes + 2 ^ 32 - (pgSize - min readBytes pgSize)) % 2 ^ 32 =
        zeroBytes - (pgSize - min readBytes pgSize) := by
      have hle : pgSize - min readBytes pgSize ≤ zeroBytes := by omega
      omega
    simp only [hnext, hzeros] at hround
    have hu₁ : pgOfs (u + pgSize) = 0 := by
      rw [pgOfs_eq] at hu ⊢
      unfold pgSize
      omega
    have hunmapped₁ : ∀ i < n,
        pml4GetPage s₁.machine s₁.pml4 (u + pgSize + i * pgSize) = some none := by
      intro i hi
      have hlast : (i + 1) * pgSize ≤ n * pgSize := Nat.mul_le_mul_right _ hi
      have hadd : (i + 1) * pgSize = i * pgSize + pgSize := Nat.succ_mul i pgSize
      have haddr : u + pgSize + i * pgSize = u + (i + 1) * pgSize := by omega
      have huser₁ : isUserVaddr (u + (i + 1) * pgSize) := decide_eq_true (by omega)
      rw [haddr, hkeeps₁.pml4, hkeeps₁.lookup _ huser₁ (by unfold Pages; omega)]
      exact hunmapped (i + 1) (Nat.succ_lt_succ hi)
    have hbytes₁ : readBytes - min readBytes pgSize + (zeroBytes - (pgSize - min readBytes pgSize)) =
        n * pgSize := by omega
    have hroom₁ : ((pos + min readBytes pgSize + (readBytes - min readBytes pgSize) : ℕ) : ℤ) ≤
        inode.data.length := by omega
    obtain ⟨s', hloop, hkeeps, hshows⟩ := ih hfresh₁ hfile₁ hu₁ (by omega) hunmapped₁ hbytes₁
      (by omega) hroom₁
    refine ⟨s', fun fuel hfuel ↦ ?_, (hkeeps₁.trans hkeeps).mono fun a ha ↦ ?_, fun i hi ↦ ?_⟩
    · obtain ⟨fuel, rfl⟩ : ∃ m, fuel = m + 1 := ⟨fuel - 1, by omega⟩
      exact (hround fuel).trans (hloop fuel (Nat.lt_of_succ_lt_succ hfuel))
    · unfold Pages at ha ⊢
      omega
    · by_cases hfirst : i < pgSize
      · obtain ⟨byte, himage, hshow⟩ := hshows₁ i hfirst
        refine ⟨byte, himage, hkeeps.shows hshow (decide_eq_true (by omega)) ?_⟩
        unfold Pages
        omega
      · obtain ⟨j, rfl⟩ : ∃ j, i = pgSize + j := ⟨i - pgSize, by omega⟩
        obtain ⟨byte, himage, hshow⟩ := hshows j (by omega)
        rw [hdisk₁] at himage
        rw [Nat.add_assoc] at hshow
        exact ⟨byte, himage.next, hshow⟩

end Jungle.Loader
